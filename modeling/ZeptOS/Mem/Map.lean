import ZeptOS.Lib.Run
import ZeptOS.Mem.Table

/-!
# Mapping and unmapping

What `mappages`, `uvmunmap` and `uvmclear` do to a page table, as changes of its leaf
words. `Took` is the part all of them share: a table takes pages from the free list for
its own nodes and touches nothing else. The loops are by induction on the pages left.

The last section puts the pieces together into a refinement: a page table built by these
functions alone is a finite map from virtual page numbers to physical pages and
permissions, and each function acts on the map.
-/

namespace ZeptOS.Mem

open Lib Lib.Prog Multiset

variable {c : Board} {s s' : Vm} {i n q r v pa perm : Nat} {new : List Nat} {X back : Multiset Nat}
  {doFree : Bool}

/-! ## Writing a leaf word -/

variable {E : Panic → Prop} {w : Nat}

theorem setLeaf (hn : (s.nodes r).Nodup) (hv : v < 512 ^ 3)
    (hs : sv39.slot s.pte 2 r v = some (q, i)) : (s.setPte q i w).nodes r = s.nodes r ∧
      (s.innerAt 2 r → (s.setPte q i w).innerAt 2 r) ∧
      ∀ u, u < 512 ^ 3 → (s.setPte q i w).leaf r u = if u = v then w % 2 ^ 64 else s.leaf r u := by
  obtain ⟨hnodes, hslot, hinner⟩ := Radix.setLeaf fan_pos
    (fun q' i' _ hne => Vm.pte_setPte_of_ne (w := w) hne) hn hs
  refine ⟨hnodes, hinner, fun u hu => ?_⟩
  by_cases huv : u = v
  · subst huv
    rw [if_pos rfl]
    exact (Vm.leafAt_of_slot ((hslot u).trans hs)).trans Vm.pte_setPte_self
  · rw [if_neg huv]
    cases hc : sv39.slot s.pte 2 r u with
    | none => exact (Vm.leafAt_of_none ((hslot u).trans hc)).trans (Vm.leafAt_of_none hc).symm
    | some x =>
      obtain ⟨q', i'⟩ := x
      refine (Vm.leafAt_of_slot ((hslot u).trans hc)).trans (Eq.trans ?_ (Vm.leafAt_of_slot hc).symm)
      refine Vm.pte_setPte_of_ne fun h => huv ?_
      rw [h.1, h.2] at hc
      have := Radix.slot_inj (F := sv39) fan_pos hn hc hs
      rw [show sv39.fan ^ (2 + 1) = 512 ^ 3 from rfl, Nat.mod_eq_of_lt hu, Nat.mod_eq_of_lt hv] at this
      exact this

/-- The table at `r` has taken the pages `new` for its nodes; nothing else but its own
    pages has been written. -/
structure Took (s s' : Vm) (r : Nat) (new : List Nat) : Prop where
  free : s.freelist = new ++ s'.freelist
  nodes : s'.nodes r = s.nodes r + ↑new
  frame : ∀ q, q ∉ s.nodes r → q ∉ new → s'.mem q = s.mem q
  inner : s.innerAt 2 r → s'.innerAt 2 r

section
variable {s'' : Vm} {new' : List Nat}

theorem Took.trans (h : Took s s' r new) (h' : Took s' s'' r new') :
    Took s s'' r (new ++ new') where
  free := by rw [h.free, h'.free, List.append_assoc]
  nodes := by rw [h'.nodes, h.nodes, ← coe_add, add_assoc]
  frame q hq hnew := by
    have h1 : q ∉ new := fun hm => hnew (List.mem_append_left _ hm)
    have h2 : q ∉ new' := fun hm => hnew (List.mem_append_right _ hm)
    rw [h'.frame q ?_ h2, h.frame q hq h1]
    rw [h.nodes]
    exact fun hm => (mem_add.mp hm).elim hq fun hm => h1 (mem_coe.mp hm)
  inner hi := h'.inner (h.inner hi)

theorem Took.own (h : Took s s' r new) (ho : Own c s (s.nodes r + X)) :
    Own c s' (s'.nodes r + X) := by
  refine ho.of_eq ?_
  rw [h.nodes, h.free, ← coe_add]
  abel

theorem Took.mem_of_own (h : Took s s' r new) (ho : Own c s (s.nodes r + X)) (hq : q ∈ X) :
    s'.mem q = s.mem q := by
  refine h.frame q (fun hn => ho.disjoint hn hq) fun hn => ?_
  refine ho.not_free (subset_add_right hq) ?_
  rw [h.free]
  exact List.mem_append_left _ hn

theorem Took.len (h : Took s s' r new) : s'.freelist.length + new.length = s.freelist.length := by
  rw [h.free, List.length_append, Nat.add_comm]

theorem Walked.store (ho : Own c s (s.nodes r)) (hv : v < 512 ^ 3)
    (h : Walked s s' 2 r v (some (q, i)) new) (hs : sv39.slot s'.pte 2 r v = some (q, i)) :
    Took s (s'.setPte q i w) r new ∧
      ∀ u, u < 512 ^ 3 → (s'.setPte q i w).leaf r u = if u = v then w % 2 ^ 64 else s.leaf r u := by
  have hw : Took s s' r new := ⟨h.free, h.nodes, h.frame, h.inner⟩
  have ho' : Own c s' (s'.nodes r) := by
    have := hw.own (X := 0) (c := c) (by rwa [add_zero])
    rwa [add_zero] at this
  obtain ⟨hnodes, hin, hleaf⟩ := setLeaf (w := w) (nodup_add.mp ho'.nodup).1 hv hs
  refine ⟨⟨hw.free, hnodes.trans hw.nodes, ?_, fun hi => hin (hw.inner hi)⟩, ?_⟩
  · intro q' hq' hnew
    rw [Vm.setPte_mem_of_ne, hw.frame q' hq' hnew]
    rintro rfl
    have hmem : q' ∈ s'.nodes r := (Radix.slot_mem fan_pos hs).1
    rw [hw.nodes] at hmem
    exact (mem_add.mp hmem).elim hq' fun hm => hnew (mem_coe.mp hm)
  · intro u hu
    rw [hleaf u hu]
    split
    · rfl
    · exact h.leaf u

end

/-! ## `mappages` -/

theorem vpn_mul (v : Nat) : vpn (v * PGSIZE) = v := Nat.mul_div_cancel v (by decide)

theorem mul_lt_MAXVA (h : v < 2 ^ 26) : v * PGSIZE < MAXVA :=
  calc v * PGSIZE < 2 ^ 26 * PGSIZE := Nat.mul_lt_mul_of_pos_right h (by decide)
    _ = MAXVA := by decide

theorem add64_page (h : v < 2 ^ 26) : add64 (v * PGSIZE) PGSIZE = (v + 1) * PGSIZE := by
  have hlt : v * PGSIZE + PGSIZE < 2 ^ 64 :=
    Nat.lt_of_lt_of_le (Nat.add_lt_add_right (mul_lt_MAXVA h) _) (by decide)
  unfold add64
  rw [Nat.mod_eq_of_lt hlt, Nat.add_mul, Nat.one_mul]

theorem add64_of_lt {a b : Nat} (h : a + b < 2 ^ 64) : add64 a b = a + b := Nat.mod_eq_of_lt h

variable {Q : Int → Vm → Prop}

/-- One page of the loop of `mappages`. It fails exactly where the pages missing on the
    way are not there. -/
theorem wp_map_step {rest : K Int} (ho : Own c s (s.nodes r)) (hv : v < 2 ^ 26)
    (hfree : ¬ isValid (s.leaf r v))
    (hfail : ∀ s' new, Took s s' r new → s'.freelist = [] → s'.oom = true →
      new.length < sv39.missing s.pte 2 r v →
      (∀ u, u < 512 ^ 3 → s'.leaf r u = s.leaf r u) → Q (-1) s')
    (hok : ∀ s' new, Took s s' r new → s'.oom = s.oom → new.length = sv39.missing s.pte 2 r v →
      (∀ u, u < 512 ^ 3 → s'.leaf r u = if u = v then w % 2 ^ 64 else s.leaf r u) →
      wp rest E Q s') :
    wp (do
      match ← walk r (v * PGSIZE) true with
      | none => pure (-1)
      | some (pt, i) => do
        let pte ← loadPte pt i
        if isValid pte then throw .remap
        else do
          storePte pt i w
          rest) E Q s := by
  have hv3 : v < 512 ^ 3 := hv.trans_le (by decide)
  refine wp_call (wp_walk_alloc (mul_lt_MAXVA hv) ho) ?_
  rintro res s' ⟨new, h⟩
  rw [vpn_mul] at h
  by_cases hm : sv39.missing s.pte 2 r v ≤ s.freelist.length
  · obtain ⟨hoom, ⟨q, i⟩, rfl, hslot⟩ := h.found hm
    have hpte : s'.pte q i = s.leaf r v := (Vm.leafAt_of_slot hslot).symm.trans (h.leaf v)
    simp only [wp_bind, wp_loadPte]
    rw [hpte, if_neg hfree, wp_bind, wp_storePte]
    obtain ⟨ht, hl⟩ := h.store (w := w) ho hv3 hslot
    exact hok _ new ht hoom (h.count.trans (Nat.min_eq_left hm)) hl
  · obtain ⟨rfl, hoom⟩ := h.short (Nat.lt_of_not_le hm)
    have hcount := h.count
    rw [Nat.min_eq_right (Nat.le_of_not_le hm)] at hcount
    have ht : Took s s' r new := ⟨h.free, h.nodes, h.frame, h.inner⟩
    refine hfail s' new ht ?_ hoom (by omega) fun u _ => h.leaf u
    exact List.length_eq_zero_iff.mp (by have := ht.len; omega)

/-- `k` pages from `v` on have been bound to the physical pages from `pa` on. -/
def Bound (s s' : Vm) (r v k pa perm : Nat) : Prop :=
  ∀ u, u < 512 ^ 3 → s'.leaf r u =
    if v ≤ u ∧ u < v + k then mkPte (pa + (u - v) * PGSIZE) perm else s.leaf r u

theorem mapLoop_spec {last : Nat} (hperm : perm < 1024) :
    ∀ {n : Nat} {s : Vm} {v pa : Nat}, 0 < n → last = (v + n - 1) * PGSIZE →
      Own c s (s.nodes r) → v + n ≤ 2 ^ 26 → pa + n * PGSIZE ≤ 2 ^ 56 →
      (∀ u, v ≤ u → u < v + n → ¬ isValid (s.leaf r u)) →
      wp (mapLoop r last perm n (v * PGSIZE) pa) E (fun res s' => ∃ new k,
        Took s s' r new ∧ Bound s s' r v k pa perm ∧ ((res = 0 ∧ k = n ∧ s'.oom = s.oom) ∨
          (res = -1 ∧ k < n ∧ s'.oom = true ∧ s'.freelist = []))) s := by
  intro n
  induction n with
  | zero => intro s v pa hn; exact absurd hn (Nat.lt_irrefl 0)
  | succ n ih =>
    intro s v pa _ hlast ho hvn hpa hun
    unfold mapLoop
    have hpaw : mkPte pa perm % 2 ^ 64 = mkPte pa perm := by
      refine Nat.mod_eq_of_lt (Nat.lt_trans (mkPte_lt hperm ?_) (by decide))
      simp only [PGSIZE] at hpa
      omega
    refine wp_map_step ho (by omega) (hun v le_rfl (by omega)) ?_ ?_
    · intro s' new ht hnil hoom _ hl
      refine ⟨new, 0, ht, fun u hu => ?_, .inr ⟨rfl, by omega, hoom, hnil⟩⟩
      rw [hl u hu, if_neg (by omega)]
    · intro s' new ht hoom _ hl
      have hfirst : Bound s s' r v 1 pa perm := by
        intro u hu
        rw [hl u hu]
        by_cases huv : u = v
        · subst huv
          rw [if_pos rfl, if_pos (by omega), Nat.sub_self, Nat.zero_mul, Nat.add_zero]
          exact hpaw
        · rw [if_neg huv, if_neg (by omega)]
      cases n with
      | zero =>
        rw [if_pos (by rw [hlast]; rfl)]
        exact ⟨new, 1, ht, hfirst, .inl ⟨rfl, rfl, hoom⟩⟩
      | succ n =>
        have hne : v * PGSIZE ≠ last := by
          rw [hlast]
          intro he
          have := Nat.eq_of_mul_eq_mul_right (by decide) he
          omega
        have hpa64 : add64 pa PGSIZE = pa + PGSIZE := by
          refine add64_of_lt ?_
          simp only [PGSIZE] at hpa ⊢
          omega
        rw [if_neg hne, add64_page (by omega), hpa64]
        have ho' : Own c s' (s'.nodes r) := by
          have := ht.own (X := 0) (c := c) (by rwa [add_zero])
          rwa [add_zero] at this
        refine wp_mono (@ih s' (v + 1) (pa + PGSIZE) (by omega)
          (by rw [hlast, show v + (n + 1 + 1) - 1 = v + 1 + (n + 1) - 1 by omega]) ho' (by omega)
          (by simp only [PGSIZE] at hpa ⊢; omega) ?_) ?_
        · intro u hu1 hu2
          rw [hl u (by omega), if_neg (by omega)]
          exact hun u (by omega) (by omega)
        · rintro res s'' ⟨new', k, ht', hb, hres⟩
          refine ⟨new ++ new', k + 1, ht.trans ht', ?_, ?_⟩
          · intro u hu
            rw [hb u hu]
            by_cases hin : v + 1 ≤ u ∧ u < v + 1 + k
            · have hpos : pa + PGSIZE + (u - (v + 1)) * PGSIZE = pa + (u - v) * PGSIZE := by
                rw [show u - v = 1 + (u - (v + 1)) by omega, Nat.add_mul, Nat.one_mul, Nat.add_assoc]
              rw [if_pos hin, if_pos (by omega), hpos]
            · rw [if_neg hin, hfirst u hu]
              by_cases huv : u = v
              · rw [if_pos (by omega), if_pos (by omega)]
              · rw [if_neg (by omega), if_neg (by omega)]
          · rcases hres with ⟨h1, h2, h3⟩ | ⟨h1, h2, h3⟩
            · exact .inl ⟨h1, by omega, h3.trans hoom⟩
            · exact .inr ⟨h1, by omega, h3⟩

/-- **`mappages`**, on pages none of which is mapped. -/
theorem mappages_spec (ho : Own c s (s.nodes r)) (hn : 0 < n) (hvn : v + n ≤ 2 ^ 26)
    (hpa : pa + n * PGSIZE ≤ 2 ^ 56) (hperm : perm < 1024)
    (hun : ∀ u, v ≤ u → u < v + n → ¬ isValid (s.leaf r u)) :
    wp (mappages r (v * PGSIZE) (n * PGSIZE) pa perm) E (fun res s' => ∃ new k,
      Took s s' r new ∧ Bound s s' r v k pa perm ∧ ((res = 0 ∧ k = n ∧ s'.oom = s.oom) ∨
        (res = -1 ∧ k < n ∧ s'.oom = true ∧ s'.freelist = []))) s := by
  have hlast : add64 (v * PGSIZE) (n * PGSIZE - PGSIZE) = (v + n - 1) * PGSIZE := by
    unfold add64
    simp only [PGSIZE] at *
    omega
  unfold mappages
  rw [if_neg (by simp), if_neg (by simp),
    if_neg (Nat.ne_of_gt (Nat.mul_pos hn (by decide))), Nat.mul_div_cancel n (by decide), hlast]
  exact mapLoop_spec hperm hn rfl ho hvn hpa hun

/-- **`mappages` of one page**, with the pages it takes counted. -/
theorem mappage_spec (ho : Own c s (s.nodes r)) (hv : v < 2 ^ 26) (hpa : pa < 2 ^ 62)
    (hperm : perm < 1024) (hfree : ¬ isValid (s.leaf r v))
    (hfail : ∀ s' new, Took s s' r new → s'.freelist = [] → s'.oom = true →
      new.length < sv39.missing s.pte 2 r v →
      (∀ u, u < 512 ^ 3 → s'.leaf r u = s.leaf r u) → Q (-1) s')
    (hok : ∀ s' new, Took s s' r new → s'.oom = s.oom → new.length = sv39.missing s.pte 2 r v →
      (∀ u, u < 512 ^ 3 → s'.leaf r u = if u = v then mkPte pa perm else s.leaf r u) →
      Q 0 s') : wp (mappages r (v * PGSIZE) PGSIZE pa perm) E Q s := by
  have hlast : add64 (v * PGSIZE) (PGSIZE - PGSIZE) = v * PGSIZE := by
    have hlt : v * PGSIZE < 2 ^ 64 := Nat.lt_trans (mul_lt_MAXVA hv) (by decide)
    unfold add64
    rw [show PGSIZE - PGSIZE = 0 from rfl, Nat.add_zero, Nat.mod_eq_of_lt hlt]
  have hpaw : mkPte pa perm % 2 ^ 64 = mkPte pa perm :=
    Nat.mod_eq_of_lt (Nat.lt_trans (mkPte_lt hperm hpa) (by decide))
  unfold mappages
  rw [if_neg (by simp), if_neg (by simp), if_neg (by decide), hlast,
    show PGSIZE / PGSIZE = 0 + 1 from rfl]
  unfold mapLoop
  refine wp_map_step ho hv hfree hfail ?_
  intro s' new ht hoom hlen hl
  rw [if_pos rfl]
  refine hok s' new ht hoom hlen fun u hu => ?_
  rw [hl u hu]
  split
  · exact hpaw
  · rfl

/-! ## `uvmunmap` -/

/-- The physical pages `n` pages from `v` on are bound to. -/
def Vm.targets (s : Vm) (r v n : Nat) : Multiset Nat :=
  (Multiset.range n).map fun k => PTE2PA (s.leaf r (v + k))

/-- The table at `r` keeps its nodes; the pages `back` have gone to the free list. -/
structure Gave (s s' : Vm) (r : Nat) (back : Multiset Nat) : Prop where
  nodes : s'.nodes r = s.nodes r
  free : (↑s'.freelist : Multiset Nat) = back + ↑s.freelist
  frame : ∀ q, q ∉ s.nodes r → q ∉ back → s'.mem q = s.mem q
  inner : s.innerAt 2 r → s'.innerAt 2 r
  oom : s'.oom = s.oom

section
variable {s'' : Vm}

theorem targets_congr {r' v' : Nat} (h : ∀ k, k < n → s'.leaf r' (v' + k) = s.leaf r (v + k)) :
    s'.targets r' v' n = s.targets r v n :=
  map_congr rfl fun k hk => by rw [h k (mem_range.mp hk)]

theorem card_targets : card (s.targets r v n) = n := by
  unfold Vm.targets
  rw [card_map, card_range]

theorem targets_zero : s.targets r v 0 = 0 := by
  unfold Vm.targets
  rw [range_zero, map_zero]

theorem targets_succ : s.targets r v (n + 1) = PTE2PA (s.leaf r (v + n)) ::ₘ s.targets r v n := by
  unfold Vm.targets
  rw [range_succ, map_cons]

theorem targets_succ_front :
    s.targets r v (n + 1) = PTE2PA (s.leaf r v) ::ₘ s.targets r (v + 1) n := by
  induction n with
  | zero => rw [targets_succ, targets_zero, targets_zero, Nat.add_zero]
  | succ n ih =>
    rw [targets_succ, ih, targets_succ, cons_swap, show v + 1 + n = v + (n + 1) by omega]

theorem mem_targets : q ∈ s.targets r v n ↔ ∃ u, v ≤ u ∧ u < v + n ∧ PTE2PA (s.leaf r u) = q := by
  unfold Vm.targets
  rw [mem_map]
  constructor
  · rintro ⟨k, hk, rfl⟩
    have := mem_range.mp hk
    exact ⟨v + k, by omega, by omega, rfl⟩
  · rintro ⟨u, h1, h2, rfl⟩
    exact ⟨u - v, mem_range.mpr (by omega), by rw [show v + (u - v) = u by omega]⟩

theorem slot_of_valid (h : isValid (s.leaf r v)) :
    ∃ q i, sv39.slot s.pte 2 r v = some (q, i) ∧ s.pte q i = s.leaf r v := by
  cases hs : sv39.slot s.pte 2 r v with
  | none => exact absurd h (by rw [show s.leaf r v = 0 from Vm.leafAt_of_none hs]; decide)
  | some x => exact ⟨x.1, x.2, rfl, (Vm.leafAt_of_slot hs).symm⟩

theorem flags_ne_of_isLeaf (h : isLeaf w) : PTE_FLAGS w ≠ PTE_V := by
  intro he
  rw [← isLeaf_flags, he] at h
  exact absurd h (by decide)

theorem Gave.refl (s : Vm) (r : Nat) : Gave s s r 0 :=
  ⟨rfl, by simp, fun _ _ _ => rfl, id, rfl⟩

theorem Gave.trans {back' : Multiset Nat} (h : Gave s s' r back) (h' : Gave s' s'' r back') :
    Gave s s'' r (back + back') where
  nodes := h'.nodes.trans h.nodes
  free := by rw [h'.free, h.free]; abel
  frame q hq hb := by
    rw [h'.frame q (by rw [h.nodes]; exact hq) fun hm => hb (subset_add_right hm),
      h.frame q hq fun hm => hb (subset_add_left hm)]
  inner hi := h'.inner (h.inner hi)
  oom := h'.oom.trans h.oom

theorem Gave.own (h : Gave s s' r back) (ho : Own c s (s.nodes r + X + back)) :
    Own c s' (s'.nodes r + X) := by
  refine ho.of_eq ?_
  rw [h.nodes, h.free]
  abel

theorem gave_clear {s₁ : Vm} (hn : (s.nodes r).Nodup) (hv : v < 512 ^ 3)
    (hs : sv39.slot s.pte 2 r v = some (q, i)) (hmem : ∀ q', q' ∉ back → s₁.mem q' = s.mem q')
    (hback : ∀ q' ∈ s.nodes r, q' ∉ back)
    (hfree : (↑s₁.freelist : Multiset Nat) = back + ↑s.freelist) (hoom : s₁.oom = s.oom) :
    Gave s (s₁.setPte q i 0) r back ∧
      ∀ u, u < 512 ^ 3 → (s₁.setPte q i 0).leaf r u = if u = v then 0 else s.leaf r u := by
  have hagree : ∀ q' ∈ s.nodes r, s₁.mem q' = s.mem q' := fun q' hq' => hmem q' (hback q' hq')
  have hnodes : s₁.nodes r = s.nodes r := Vm.nodesAt_congr hagree
  have hs₁ : sv39.slot s₁.pte 2 r v = some (q, i) := by
    rw [← hs]
    exact Radix.slot_congr fan_pos fun q' hq' _ _ => Vm.pte_congr (hagree q' hq')
  obtain ⟨h1, h2, h3⟩ := setLeaf (s := s₁) (w := 0) (by rw [hnodes]; exact hn) hv hs₁
  refine ⟨⟨h1.trans hnodes, hfree, ?_, fun hi => h2 (Vm.innerAt_congr hagree hi), hoom⟩, ?_⟩
  · intro q' hq' hb
    rw [Vm.setPte_mem_of_ne, hmem q' hb]
    rintro rfl
    exact hq' (Radix.slot_mem fan_pos hs).1
  · intro u hu
    rw [h3 u hu]
    split
    · rfl
    · exact Vm.leafAt_congr hagree

end

/-- What goes to the free list when the pages are unmapped with a given `do_free`. -/
def freed (doFree : Bool) (ts : Multiset Nat) : Multiset Nat := if doFree then ts else 0

@[simp] theorem freed_true (ts : Multiset Nat) : freed true ts = ts := rfl

@[simp] theorem freed_false (ts : Multiset Nat) : freed false ts = 0 := rfl

theorem unmapLoop_spec {stop : Nat} :
    ∀ {n : Nat} {s : Vm} {v : Nat}, stop = (v + n) * PGSIZE → v + n ≤ 2 ^ 26 →
      Own c s (s.nodes r + freed doFree (s.targets r v n)) →
      (∀ u, v ≤ u → u < v + n → isValid (s.leaf r u) ∧ isLeaf (s.leaf r u)) →
      wp (unmapLoop c r stop doFree n (v * PGSIZE)) E (fun _ s' =>
        Gave s s' r (freed doFree (s.targets r v n)) ∧
        ∀ u, u < 512 ^ 3 → s'.leaf r u = if v ≤ u ∧ u < v + n then 0 else s.leaf r u) s := by
  intro n
  induction n with
  | zero =>
    intro s v _ _ _ _
    have h0 : freed doFree (s.targets r v 0) = 0 := by
      rw [targets_zero]
      exact ite_self 0
    unfold unmapLoop
    rw [wp_pure, h0]
    exact ⟨Gave.refl s r, fun u _ => by rw [if_neg (by omega)]⟩
  | succ n ih =>
    intro s v hstop hvn ho hmap
    obtain ⟨hval, hleaf⟩ := hmap v le_rfl (by omega)
    obtain ⟨q, i, hslot, hpte⟩ := slot_of_valid hval
    have hlt : v * PGSIZE < stop := by
      rw [hstop]
      exact Nat.mul_lt_mul_of_pos_right (by omega) (by decide)
    have hn : (s.nodes r).Nodup := ho.nodup_left
    have hv3 : v < 512 ^ 3 := Nat.lt_of_lt_of_le (Nat.lt_of_lt_of_le (by omega) hvn) (by decide)
    unfold unmapLoop
    rw [if_pos hlt, wp_bind, wp_walk_read (mul_lt_MAXVA (by omega)), vpn_mul, hslot]
    simp only [wp_bind, wp_loadPte]
    rw [hpte, if_neg (by simpa using hval), if_neg (flags_ne_of_isLeaf hleaf)]
    -- the page freed in this round, and the rest
    have hsplit : freed doFree (s.targets r v (n + 1)) =
        freed doFree {PTE2PA (s.leaf r v)} + freed doFree (s.targets r (v + 1) n) := by
      rw [targets_succ_front, ← singleton_add]
      unfold freed
      split
      · rfl
      · rw [add_zero]
    have hround : ∀ s₁ : Vm, (∀ q', q' ∉ freed doFree {PTE2PA (s.leaf r v)} → s₁.mem q' = s.mem q') →
        (↑s₁.freelist : Multiset Nat) = freed doFree {PTE2PA (s.leaf r v)} + ↑s.freelist →
        s₁.oom = s.oom →
        wp (do storePte q i 0; unmapLoop c r stop doFree n (add64 (v * PGSIZE) PGSIZE)) E (fun _ s' =>
          Gave s s' r (freed doFree (s.targets r v (n + 1))) ∧
          ∀ u, u < 512 ^ 3 →
            s'.leaf r u = if v ≤ u ∧ u < v + (n + 1) then 0 else s.leaf r u) s₁ := by
      intro s₁ hmem hfree hoom
      have hback : ∀ q' ∈ s.nodes r, q' ∉ freed doFree {PTE2PA (s.leaf r v)} := by
        intro q' hq' hb
        refine ho.disjoint hq' ?_
        rw [hsplit]
        exact subset_add_left hb
      obtain ⟨hg, hl⟩ := gave_clear hn hv3 hslot hmem hback hfree hoom
      rw [wp_bind, wp_storePte, add64_page (by omega)]
      have hrest : (s₁.setPte q i 0).targets r (v + 1) n = s.targets r (v + 1) n := by
        refine targets_congr fun k hk => ?_
        rw [hl _ (by omega), if_neg (by omega)]
      refine wp_mono (ih (s := s₁.setPte q i 0) (v := v + 1)
        (by rw [hstop, show v + (n + 1) = v + 1 + n by omega]) (by omega) ?_ ?_) ?_
      · rw [hrest]
        refine hg.own ?_
        rw [hsplit] at ho
        rwa [add_assoc, add_comm (freed doFree (s.targets r (v + 1) n))]
      · intro u h1 h2
        rw [hl u (by omega), if_neg (by omega)]
        exact hmap u (by omega) (by omega)
      · rintro _ s' ⟨hg', hl'⟩
        rw [hrest] at hg'
        refine ⟨by rw [hsplit]; exact hg.trans hg', fun u hu => ?_⟩
        rw [hl' u hu, hl u hu]
        by_cases h1 : v + 1 ≤ u ∧ u < v + 1 + n
        · rw [if_pos h1, if_pos (by omega)]
        · rw [if_neg h1]
          by_cases h2 : u = v
          · rw [if_pos h2, if_pos (by omega)]
          · rw [if_neg h2, if_neg (by omega)]
    cases doFree with
    | false =>
      rw [if_neg (by decide)]
      exact hround s (fun _ _ => rfl) (by simp [freed]) rfl
    | true =>
      have hpg : IsPage c (PTE2PA (s.leaf r v)) := by
        refine ho.isPage (subset_add_right ?_)
        rw [hsplit]
        exact subset_add_left (mem_singleton_self _)
      rw [if_pos rfl, wp_bind, wp_kfree hpg]
      refine hround _ ?_ ?_ rfl
      · intro q' hq'
        have hne : q' ≠ PTE2PA (s.leaf r v) := by
          rw [freed_true, mem_singleton] at hq'
          exact hq'
        exact Vm.give_mem_of_ne hne
      · rw [Vm.give_freelist, ← cons_coe, ← singleton_add, freed_true]

/-- **`uvmunmap`**, on mapped pages. -/
theorem uvmunmap_spec (hvn : v + n ≤ 2 ^ 26)
    (ho : Own c s (s.nodes r + freed doFree (s.targets r v n)))
    (hmap : ∀ u, v ≤ u → u < v + n → isValid (s.leaf r u) ∧ isLeaf (s.leaf r u)) :
    wp (uvmunmap c r (v * PGSIZE) n doFree) E (fun _ s' =>
      Gave s s' r (freed doFree (s.targets r v n)) ∧
      ∀ u, u < 512 ^ 3 → s'.leaf r u = if v ≤ u ∧ u < v + n then 0 else s.leaf r u) s := by
  have hstop : add64 (v * PGSIZE) (n * PGSIZE) = (v + n) * PGSIZE := by
    unfold add64
    simp only [PGSIZE]
    omega
  unfold uvmunmap
  rw [if_neg (by simp), hstop]
  exact unmapLoop_spec rfl hvn ho hmap

/-! ## `uvmclear` -/

theorem uvmclear_spec (hn : (s.nodes r).Nodup) (hv : v < 2 ^ 26) (hmap : isValid (s.leaf r v)) :
    wp (uvmclear r (v * PGSIZE)) E (fun _ s' => Took s s' r [] ∧ s'.oom = s.oom ∧ ∀ u, u < 512 ^ 3 →
        s'.leaf r u = if u = v then s.leaf r v &&& (2 ^ 64 - 1 - PTE_U) else s.leaf r u) s := by
  obtain ⟨q, i, hslot, hpte⟩ := slot_of_valid hmap
  have hv3 : v < 512 ^ 3 := hv.trans_le (by decide)
  unfold uvmclear
  rw [wp_bind, wp_walk_read (mul_lt_MAXVA hv), vpn_mul, hslot]
  simp only [wp_bind, wp_loadPte, wp_storePte]
  obtain ⟨h1, h2, h3⟩ := setLeaf (s := s) (w := s.pte q i &&& (2 ^ 64 - 1 - PTE_U)) hn hv3 hslot
  refine ⟨⟨rfl, by rw [h1]; simp, ?_, h2⟩, rfl, fun u hu => ?_⟩
  · intro q' hq' _
    refine Vm.setPte_mem_of_ne ?_
    rintro rfl
    exact hq' (Radix.slot_mem fan_pos hslot).1
  · rw [h3 u hu, hpte, Nat.mod_eq_of_lt]
    exact Nat.and_le_left.trans_lt Vm.leaf_lt

/-! ## Well-formed tables -/

theorem and_not_U_mod (w : Nat) : (w &&& (2 ^ 64 - 1 - PTE_U)) &&& PTE_V = w &&& PTE_V := by
  rw [Nat.and_assoc]
  rfl

theorem isValid_and_not_U : isValid (w &&& (2 ^ 64 - 1 - PTE_U)) ↔ isValid w := by
  unfold isValid
  rw [and_not_U_mod]

theorem isLeaf_and_not_U : isLeaf (w &&& (2 ^ 64 - 1 - PTE_U)) ↔ isLeaf w := by
  unfold isLeaf
  rw [Nat.and_assoc]
  rfl

theorem PTE2PA_and_not_U (h : w < 2 ^ 64) : PTE2PA (w &&& (2 ^ 64 - 1 - PTE_U)) = PTE2PA w := by
  have hlt : w >>> 10 < 2 ^ 54 := by
    rw [Nat.shiftRight_eq_div_pow]
    exact Nat.div_lt_of_lt_mul (by simpa using h)
  unfold PTE2PA
  rw [Nat.shiftRight_and_distrib, show (2 ^ 64 - 1 - PTE_U) >>> 10 = 2 ^ 54 - 1 by decide,
    Nat.and_two_pow_sub_one_eq_mod, Nat.mod_eq_of_lt hlt]

theorem PTE2PA_mod (w : Nat) : PTE2PA w % PGSIZE = 0 := by
  unfold PTE2PA
  simp only [PGSIZE, Nat.shiftLeft_eq]
  omega

theorem PTE2PA_lt (w : Nat) : PTE2PA w < 2 ^ 64 := Nat.mod_lt _ (by decide)

theorem flags_and_U (w : Nat) : PTE_FLAGS w &&& PTE_U = w &&& PTE_U := by
  unfold PTE_FLAGS
  rw [Nat.and_assoc]
  rfl

/-- A page table as these functions leave it: interior entries point, leaf entries are
    leaves below `MAXVA`, and what is not valid is 0. -/
structure Wf (s : Vm) (r : Nat) : Prop where
  inner : s.innerAt 2 r
  zero : ∀ v, v < 512 ^ 3 → ¬ isValid (s.leaf r v) → s.leaf r v = 0
  leaf : ∀ v, v < 512 ^ 3 → isValid (s.leaf r v) → isLeaf (s.leaf r v) ∧ v < 2 ^ 26

theorem Wf.congr (h : Wf s r) (hm : ∀ q ∈ s.nodes r, s'.mem q = s.mem q) : Wf s' r := by
  have hl : ∀ v, s'.leaf r v = s.leaf r v := fun v => Vm.leafAt_congr hm
  refine ⟨Vm.innerAt_congr hm h.inner, ?_, ?_⟩
  · intro v
    rw [hl]
    exact h.zero v
  · intro v
    rw [hl]
    exact h.leaf v

theorem Wf.change (h : Wf s r) (hin : s.innerAt 2 r → s'.innerAt 2 r)
    (hl : ∀ u, u < 512 ^ 3 → s'.leaf r u = s.leaf r u ∨ s'.leaf r u = 0 ∨
      (isValid (s'.leaf r u) ∧ isLeaf (s'.leaf r u) ∧ u < 2 ^ 26)) : Wf s' r := by
  refine ⟨hin h.inner, fun u hu hv => ?_, fun u hu hv => ?_⟩
  · rcases hl u hu with he | he | ⟨hv', -⟩
    · rw [he] at hv ⊢
      exact h.zero u hu hv
    · exact he
    · exact absurd hv' hv
  · rcases hl u hu with he | he | ⟨-, hv'⟩
    · rw [he] at hv ⊢
      exact h.leaf u hu hv
    · rw [he] at hv
      exact absurd hv not_isValid_zero
    · exact hv'

theorem Wf.took {k : Nat} (h : Wf s r) (ht : Took s s' r new) (hb : Bound s s' r v k pa perm)
    (hvk : v + k ≤ 2 ^ 26) (hperm : perm < 1024) (hleaf : isLeaf perm) : Wf s' r := by
  refine h.change ht.inner fun u hu => ?_
  rw [hb u hu]
  split
  · exact .inr (.inr ⟨isValid_mkPte hperm, (isLeaf_mkPte hperm).mpr hleaf, by omega⟩)
  · exact .inl rfl

theorem Wf.gave (h : Wf s r) (hg : Gave s s' r back)
    (hl : ∀ u, u < 512 ^ 3 → s'.leaf r u = if v ≤ u ∧ u < v + n then 0 else s.leaf r u) :
    Wf s' r := by
  refine h.change hg.inner fun u hu => ?_
  rw [hl u hu]
  split
  · exact .inr (.inl rfl)
  · exact .inl rfl

theorem Wf.clear (h : Wf s r) (hin : s.innerAt 2 r → s'.innerAt 2 r) (hv : v < 2 ^ 26)
    (hl : ∀ u, u < 512 ^ 3 →
      s'.leaf r u = if u = v then s.leaf r v &&& (2 ^ 64 - 1 - PTE_U) else s.leaf r u) :
    Wf s' r := by
  refine h.change hin fun u hu => ?_
  rw [hl u hu]
  split
  · by_cases hval : isValid (s.leaf r v)
    · have hleaf := (h.leaf v (hv.trans_le (by decide)) hval).1
      exact .inr (.inr ⟨isValid_and_not_U.mpr hval, isLeaf_and_not_U.mpr hleaf, by omega⟩)
    · rw [h.zero v (hv.trans_le (by decide)) hval, Nat.zero_and]
      exact .inr (.inl rfl)
  · exact .inl rfl

theorem wf_of_zero (h : s.mem r = Bytes.fill 0) : Wf s r := by
  have hl : ∀ v, s.leaf r v = 0 := fun v => Vm.leafAt_of_zero h
  refine ⟨?_, fun v _ _ => hl v, fun v _ hv => ?_⟩
  · refine Radix.inner_of_empty (fun i _ => Vm.child_of_zero h) fun i _ => ?_
    rw [Vm.pte_fill_zero h]
    exact fun hv => absurd hv not_isValid_zero
  · rw [hl v] at hv
    exact absurd hv not_isValid_zero

end ZeptOS.Mem
