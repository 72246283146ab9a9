import ZeptOS.Lib.Radix
import ZeptOS.Mem.Vm

/-!
# Page tables as radix trees

The reading of memory as an Sv39 page table: the pages a table consists of (`nodes`) and
the leaf word every virtual page number leads to (`leaf`, 0 where the way to it is
missing). Everything proved later about page tables is said with these two.

The main result here is the specification of `walk`. With `alloc` it takes from the free
list exactly the pages missing on the way, in the list's order, or all there are if they
do not suffice; either way no leaf word of the table changes, and no page outside the
table and the pages taken is touched.
-/

namespace ZeptOS.Mem

open Lib Lib.Prog Function Multiset

variable {s s' : Vm} {i l p q r v w pa va : Nat} {c : Board} {E : Panic → Prop}
  {res : Option (Nat × Nat)} {rd : Nat → Nat → Nat}

/-- How a page-table page is read: 512 entries, of which the valid ones point down. -/
def sv39 : Radix Nat Nat where
  fan := 512
  child w := if isValid w then some (PTE2PA w) else none

theorem fan_pos : 0 < sv39.fan := by decide

theorem child_of_valid (h : isValid w) : sv39.child w = some (PTE2PA w) := if_pos h

theorem child_of_invalid (h : ¬ isValid w) : sv39.child w = none := if_neg h

theorem not_isValid_zero : ¬ isValid 0 := by decide

theorem digit_eq_PX (l va : Nat) : sv39.digit l (vpn va) = PX l va := (PX_eq l va).symm

theorem PX_lt (l va : Nat) : PX l va < 512 := by
  rw [PX_eq]
  exact Nat.mod_lt _ (by decide)

def pointerOk (w : Nat) : Prop := isValid w → ¬ isLeaf w

variable {rest new : List Nat}

namespace Vm

def nodesAt (s : Vm) (l p : Nat) : Multiset Nat := sv39.nodes s.pte l p

/-- The word a page number leads to from the table of a level. -/
def leafAt (s : Vm) (l p v : Nat) : Nat :=
  match sv39.slot s.pte l p v with
  | some (q, i) => s.pte q i
  | none => 0

def innerAt (s : Vm) (l p : Nat) : Prop := sv39.Inner pointerOk s.pte l p

def nodes (s : Vm) (r : Nat) : Multiset Nat := s.nodesAt 2 r

def leaf (s : Vm) (r v : Nat) : Nat := s.leafAt 2 r v

/-! ## Reading after writing -/

section
variable {j : Nat} {pg : Page}

@[simp] theorem give_freelist : (s.give pa).freelist = pa :: s.freelist := rfl
@[simp] theorem setPte_freelist : (s.setPte pa i w).freelist = s.freelist := rfl

theorem put_mem_self : (s.put pa pg).mem pa = pg := update_self ..

theorem put_mem_of_ne (h : q ≠ pa) : (s.put pa pg).mem q = s.mem q := update_of_ne h ..

theorem take_mem_of_ne (h : q ≠ pa) : (s.take pa rest).mem q = s.mem q :=
  update_of_ne h ..

theorem give_mem_of_ne (h : q ≠ pa) : (s.give pa).mem q = s.mem q := update_of_ne h ..

theorem setPte_mem_of_ne (h : q ≠ pa) : (s.setPte pa i w).mem q = s.mem q := put_mem_of_ne h

theorem pte_congr (h : s'.mem q = s.mem q) : s'.pte q j = s.pte q j := by
  unfold pte
  rw [h]

theorem pte_setPte_self : (s.setPte pa i w).pte pa i = w % 2 ^ 64 := by
  unfold pte setPte
  rw [put_mem_self, Bytes.ld_st_self, show 256 ^ 8 = 2 ^ 64 by norm_num]

theorem pte_setPte_of_ne (h : ¬ (q = pa ∧ j = i)) : (s.setPte pa i w).pte q j = s.pte q j := by
  by_cases hq : q = pa
  · subst hq
    have hj : j ≠ i := fun hj => h ⟨rfl, hj⟩
    unfold pte setPte
    rw [put_mem_self]
    refine Bytes.ld_st_disj ?_
    rcases Nat.lt_or_gt_of_ne hj with hj | hj
    · exact .inl (by omega)
    · exact .inr (by omega)
  · exact pte_congr (setPte_mem_of_ne hq)

theorem pte_fill_zero (h : s.mem q = Bytes.fill 0) : s.pte q j = 0 := by
  unfold pte
  rw [h]
  exact Bytes.ld_zero ..

theorem pte_lt : s.pte q j < 2 ^ 64 := by
  have := Bytes.ld_lt (s.mem q) 8 (8 * j)
  unfold pte
  norm_num at this ⊢
  exact this

end

/-! ## Tables that agree -/

theorem nodesAt_congr (h : ∀ q ∈ s.nodesAt l p, s'.mem q = s.mem q) :
    s'.nodesAt l p = s.nodesAt l p :=
  Radix.nodes_congr fun q hq _ _ => pte_congr (h q hq)

theorem leafAt_of_slot (h : sv39.slot s.pte l p v = some (q, i)) : s.leafAt l p v = s.pte q i := by
  unfold leafAt
  rw [h]

theorem leafAt_of_none (h : sv39.slot s.pte l p v = none) : s.leafAt l p v = 0 := by
  unfold leafAt
  rw [h]

theorem leafAt_congr (h : ∀ q ∈ s.nodesAt l p, s'.mem q = s.mem q) :
    s'.leafAt l p v = s.leafAt l p v := by
  have hs : sv39.slot s'.pte l p v = sv39.slot s.pte l p v :=
    Radix.slot_congr fan_pos fun q hq _ _ => pte_congr (h q hq)
  cases hc : sv39.slot s.pte l p v with
  | none => rw [leafAt_of_none hc, leafAt_of_none (hs.trans hc)]
  | some x =>
    obtain ⟨q, i⟩ := x
    rw [leafAt_of_slot hc, leafAt_of_slot (hs.trans hc)]
    exact pte_congr (h q (Radix.slot_mem fan_pos hc).1)

theorem innerAt_congr (h : ∀ q ∈ s.nodesAt l p, s'.mem q = s.mem q) (hin : s.innerAt l p) :
    s'.innerAt l p :=
  Radix.inner_congr (fun q hq _ _ => pte_congr (h q hq)) hin

theorem leafAt_of_child {c : Nat} (hc : sv39.child (s.pte p (sv39.digit (l + 1) v)) = some c) :
    s.leafAt (l + 1) p v = s.leafAt l c v := by
  unfold leafAt
  rw [Radix.slot_succ_of_child hc]

theorem leafAt_of_no_child (hc : sv39.child (s.pte p (sv39.digit (l + 1) v)) = none) :
    s.leafAt (l + 1) p v = 0 :=
  leafAt_of_none (Radix.slot_succ_of_none hc)

theorem leafAt_of_zero (h : s.mem p = Bytes.fill 0) : s.leafAt l p v = 0 := by
  cases l with
  | zero => exact (leafAt_of_slot rfl).trans (pte_fill_zero h)
  | succ l =>
    refine leafAt_of_no_child ?_
    rw [pte_fill_zero h]
    exact child_of_invalid not_isValid_zero

theorem child_of_zero (h : s.mem p = Bytes.fill 0) : sv39.child (s.pte p i) = none := by
  rw [pte_fill_zero h]
  exact child_of_invalid not_isValid_zero

theorem leaf_lt : s.leaf r v < 2 ^ 64 := by
  unfold leaf leafAt
  split
  · exact pte_lt
  · norm_num

/-! ## Tables that grow -/

/-- The table of a level has taken the pages `new` from the free list, and nothing else
    has happened to it: no leaf word has changed. -/
structure Grown (s s' : Vm) (l p : Nat) (new : List Nat) : Prop where
  free : s.freelist = new ++ s'.freelist
  nodes : s'.nodesAt l p = s.nodesAt l p + ↑new
  frame : ∀ q, q ∉ s.nodesAt l p → q ∉ new → s'.mem q = s.mem q
  leaf : ∀ v, s'.leafAt l p v = s.leafAt l p v
  inner : s.innerAt l p → s'.innerAt l p

theorem Grown.refl (hm : s'.mem = s.mem) (hf : s'.freelist = s.freelist) : Grown s s' l p [] where
  free := hf.symm
  nodes := by
    rw [coe_nil, add_zero]
    exact nodesAt_congr fun q _ => by rw [hm]
  frame q _ _ := by rw [hm]
  leaf v := leafAt_congr fun q _ => by rw [hm]
  inner h := innerAt_congr (fun q _ => by rw [hm]) h

theorem Grown.up (hn : (s.nodesAt (l + 1) p + ↑s.freelist).Nodup) (hi : i < 512)
    (free : s.freelist = new ++ s'.freelist)
    (hother : ∀ j, j < 512 → j ≠ i → s'.pte p j = s.pte p j)
    (hframe : ∀ q, q ≠ p → q ∉ sv39.under s.pte l (s.pte p i) → q ∉ new → s'.mem q = s.mem q)
    (hunder : sv39.under s'.pte l (s'.pte p i) = sv39.under s.pte l (s.pte p i) + ↑new)
    (hleaf : ∀ v, sv39.digit (l + 1) v = i → s'.leafAt (l + 1) p v = s.leafAt (l + 1) p v)
    (hok : s.innerAt (l + 1) p → pointerOk (s'.pte p i) ∧
      ∀ c, sv39.child (s'.pte p i) = some c → s'.innerAt l c) : Grown s s' (l + 1) p new := by
  have hnn := (nodup_add.mp hn).1
  have hdisj := (nodup_add.mp hn).2.2
  have hnew : ∀ q ∈ s.nodesAt (l + 1) p, q ∉ new := by
    intro q hq hm
    refine disjoint_left.mp hdisj hq ?_
    rw [free]
    exact mem_coe.mpr (List.mem_append_left _ hm)
  -- what lies under the other entries is neither `p`, nor under this one, nor new
  have hsame : ∀ j, j < 512 → j ≠ i → ∀ c, sv39.child (s.pte p j) = some c →
      ∀ q ∈ sv39.nodes s.pte l c, s'.mem q = s.mem q := by
    intro j hj hji c hc q hq
    have hqj : q ∈ sv39.under s.pte l (s.pte p j) := Radix.mem_under.mpr ⟨c, hc, hq⟩
    refine hframe q ?_ ?_ (hnew q (Radix.nodes_child_subset hj hc hq))
    · rintro rfl
      exact Radix.root_not_mem_under hnn hj hqj
    · exact Radix.under_disjoint hnn hj hi hji hqj
  have hdiff : sv39.Differs s.pte s'.pte l p i := fun j hj hji =>
    ⟨hother j hj hji, fun c hc q hq _ _ => pte_congr (hsame j hj hji c hc q hq)⟩
  refine ⟨free, ?_, ?_, ?_, ?_⟩
  · have hch := Radix.nodes_change hdiff hi
    rw [hunder] at hch
    refine add_right_cancel (b := sv39.under s.pte l (s.pte p i)) ?_
    unfold nodesAt
    rw [hch]
    abel
  · intro q hq hnq
    refine hframe q ?_ ?_ hnq
    · rintro rfl
      exact hq Radix.self_mem_nodes
    · intro hu
      exact hq (Radix.mem_nodes_succ.mpr (.inr ⟨i, hi, hu⟩))
  · intro v
    by_cases hv : sv39.digit (l + 1) v = i
    · exact hleaf v hv
    · have hd := Radix.digit_lt fan_pos (l + 1) v
      have hslot := Radix.slot_change hdiff fan_pos hv
      cases hc : sv39.child (s.pte p (sv39.digit (l + 1) v)) with
      | none =>
        have hs := Radix.slot_succ_of_none (F := sv39) (l := l) hc
        rw [leafAt_of_none hs, leafAt_of_none (hslot.trans hs)]
      | some c =>
        rw [leafAt_of_child hc, leafAt_of_child (c := c) (by rw [hother _ hd hv]; exact hc)]
        exact leafAt_congr (hsame _ hd hv c hc)
  · intro hin
    exact Radix.inner_change hdiff hin (hok hin)

end Vm

/-! ## The allocator and who owns what -/

def IsPage (c : Board) (p : Nat) : Prop := p % PGSIZE = 0 ∧ c.kernelEnd ≤ p ∧ p < c.ramEnd

/-- The pages `A`, in use, and the free pages are pairwise distinct pages of the RAM. -/
structure Own (c : Board) (s : Vm) (A : Multiset Nat) : Prop where
  nodup : (A + ↑s.freelist).Nodup
  page : ∀ q ∈ A + ↑s.freelist, IsPage c q

section
variable {A B : Multiset Nat}

theorem IsPage.pos (h : IsPage c p) : p ≠ 0 := by
  have := c.end_pos
  have := h.2.1
  omega

theorem IsPage.lt (h : IsPage c p) : p < 2 ^ 56 :=
  Nat.lt_of_lt_of_le h.2.2 (c.ramEnd_le.trans (by decide))

theorem not_isPage_zero : ¬ IsPage c 0 := fun h => h.pos rfl

theorem Own.of_eq (h : Own c s A) (he : B + ↑s'.freelist = A + ↑s.freelist) : Own c s' B :=
  ⟨he ▸ h.nodup, he ▸ h.page⟩

theorem Own.mono (h : Own c s A) (hle : B + ↑s'.freelist ≤ A + ↑s.freelist) : Own c s' B :=
  ⟨nodup_of_le hle h.nodup, fun q hq => h.page q (mem_of_le hle hq)⟩

theorem Own.left (h : Own c s (A + B)) : Own c s A :=
  h.mono (add_le_add_left (le_add_right A B) _)

theorem Own.free (h : Own c s A) : Own c s 0 :=
  h.mono (by rw [zero_add]; exact le_add_left _ _)

theorem Own.nodup_left (h : Own c s (A + B)) : A.Nodup :=
  nodup_of_le ((le_add_right A B).trans (le_add_right _ _)) h.nodup

theorem Own.not_free (h : Own c s A) (hq : q ∈ A) : q ∉ s.freelist := fun hf =>
  disjoint_left.mp (nodup_add.mp h.nodup).2.2 hq (mem_coe.mpr hf)

theorem Own.disjoint (h : Own c s (A + B)) (hq : q ∈ A) : q ∉ B := fun hb =>
  disjoint_left.mp
    (nodup_add.mp (nodup_add.mp h.nodup).1).2.2 hq hb

theorem Own.isPage (h : Own c s A) (hq : q ∈ A) : IsPage c q :=
  h.page q (subset_add_left hq)

theorem Own.free_isPage (h : Own c s A) (hq : q ∈ s.freelist) : IsPage c q :=
  h.page q (subset_add_right (mem_coe.mpr hq))

end

section

theorem wp_loadPte {pt : Nat} {Q : Nat → Vm → Prop} :
    wp (loadPte pt i) E Q s = Q (s.pte pt i) s := rfl

variable {Q : Unit → Vm → Prop}

theorem wp_storePte {pt : Nat} : wp (storePte pt i w) E Q s = Q () (s.setPte pt i w) := rfl

theorem wp_memset {b : UInt8} : wp (memset pa b) E Q s = Q () (s.put pa (Bytes.fill b)) := rfl

theorem wp_kalloc_nil {Q : Nat → Vm → Prop} (h : s.freelist = []) :
    wp kalloc E Q s = Q 0 { s with oom := true } := by
  unfold kalloc
  simp only [wp_bind, wp_get]
  rw [h]
  rfl

theorem wp_kalloc_cons {Q : Nat → Vm → Prop} (h : s.freelist = r :: rest) :
    wp kalloc E Q s = Q r (s.take r rest) := by
  unfold kalloc
  simp only [wp_bind, wp_get]
  rw [h]
  rfl

theorem wp_kfree (h : IsPage c pa) : wp (kfree c pa) E Q s = Q () (s.give pa) := by
  unfold kfree
  rw [if_neg]
  · rfl
  · obtain ⟨h1, h2, h3⟩ := h
    omega

end

/-! ## `walk` -/

theorem walkFrom_read : ∀ {l p : Nat} {s : Vm},
    walkFrom va false l p s = .ok (sv39.slot s.pte l p (vpn va), s) := by
  intro l
  induction l with
  | zero =>
    intro p s
    show Except.ok (some (p, PX 0 va), s) = _
    rw [← digit_eq_PX]
    simp [Radix.slot, Radix.digit]
  | succ l ih =>
    intro p s
    show (if isValid (s.pte p (PX (l + 1) va)) then _ else _ : K (Option (Nat × Nat))) s = _
    by_cases hv : isValid (s.pte p (PX (l + 1) va))
    · rw [if_pos hv, ih, Radix.slot_succ_of_child (c := PTE2PA (s.pte p (PX (l + 1) va)))]
      rw [digit_eq_PX]
      exact child_of_valid hv
    · rw [if_neg hv, if_pos rfl, Radix.slot_succ_of_none]
      · rfl
      · rw [digit_eq_PX]
        exact child_of_invalid hv

theorem wp_walk_read {Q : Option (Nat × Nat) → Vm → Prop} (h : va < MAXVA) :
    wp (walk r va false) E Q s = Q (sv39.slot s.pte 2 r (vpn va)) s := by
  unfold walk
  rw [if_neg (Nat.not_le_of_lt h)]
  unfold wp
  rw [walkFrom_read]

/-- What `walk` with `alloc` does to the table of a level. -/
structure Walked (s s' : Vm) (l p v : Nat) (res : Option (Nat × Nat)) (new : List Nat) : Prop
    extends Vm.Grown s s' l p new where
  count : new.length = min (sv39.missing s.pte l p v) s.freelist.length
  found : sv39.missing s.pte l p v ≤ s.freelist.length →
    s'.oom = s.oom ∧ ∃ x, res = some x ∧ sv39.slot s'.pte l p v = some x
  short : s.freelist.length < sv39.missing s.pte l p v → res = none ∧ s'.oom = true

theorem missing_of_child {c : Nat} (hc : sv39.child (rd p (sv39.digit (l + 1) v)) = some c) :
    sv39.missing rd (l + 1) p v = sv39.missing rd l c v := by
  rw [Radix.missing, hc]
  rfl

theorem missing_of_no_child (hc : sv39.child (rd p (sv39.digit (l + 1) v)) = none) :
    sv39.missing rd (l + 1) p v = l + 1 := by
  rw [Radix.missing, hc]
  rfl

theorem Walked.through (hn : Own c s (s.nodesAt (l + 1) p))
    (hw : s.pte p (sv39.digit (l + 1) v) = w) (hv : isValid w)
    (h : Walked s s' l (PTE2PA w) v res new) : Walked s s' (l + 1) p v res new := by
  have hc : sv39.child (s.pte p (sv39.digit (l + 1) v)) = some (PTE2PA w) := by
    rw [hw]
    exact child_of_valid hv
  have hnn := (nodup_add.mp hn.nodup).1
  have hd := Radix.digit_lt (F := sv39) fan_pos (l + 1) v
  have hp : s'.mem p = s.mem p := by
    refine h.frame p ?_ ?_
    · have := Radix.root_not_mem_under hnn hd
      rwa [Radix.under_of_child hc] at this
    · intro hm
      refine hn.not_free (q := p) Radix.self_mem_nodes ?_
      rw [h.free]
      exact List.mem_append_left _ hm
  have hpte : ∀ j, s'.pte p j = s.pte p j := fun j => Vm.pte_congr hp
  refine ⟨?_, ?_, ?_, ?_⟩
  · refine Vm.Grown.up hn.nodup hd h.free (fun j _ _ => hpte j) ?_ ?_ ?_ ?_
    · intro q _ hq hnew
      rw [Radix.under_of_child hc] at hq
      exact h.frame q hq hnew
    · rw [hpte, Radix.under_of_child hc, Radix.under_of_child hc]
      exact h.nodes
    · intro v' hv'
      rw [Vm.leafAt_of_child (c := PTE2PA w) (by rw [hpte, hv']; exact hc),
        Vm.leafAt_of_child (c := PTE2PA w) (by rw [hv']; exact hc)]
      exact h.leaf v'
    · intro hin
      rw [hpte]
      refine ⟨(hin _ hd).1, fun c' hc' => ?_⟩
      rw [hc] at hc'
      cases hc'
      exact h.inner ((hin _ hd).2 _ hc)
  · rw [missing_of_child hc]
    exact h.count
  · rw [missing_of_child hc, Radix.slot_succ_of_child (c := PTE2PA w) (by rw [hpte]; exact hc)]
    exact h.found
  · rw [missing_of_child hc]
    exact h.short

/-- The page taken for a missing table, zeroed and hung in. -/
def hang (s : Vm) (p i r : Nat) (rest : List Nat) : Vm :=
  ((s.take r rest).put r (Bytes.fill 0)).setPte p i (PA2PTE r ||| PTE_V)

theorem Walked.hung (hn : Own c s (s.nodesAt (l + 1) p))
    (hv : ¬ isValid (s.pte p (sv39.digit (l + 1) v))) (hf : s.freelist = r :: rest)
    (h : Walked (hang s p (sv39.digit (l + 1) v) r rest) s' l r v res new) :
    Walked s s' (l + 1) p v res (r :: new) := by
  have hc : sv39.child (s.pte p (sv39.digit (l + 1) v)) = none := child_of_invalid hv
  have hd := Radix.digit_lt (F := sv39) fan_pos (l + 1) v
  have hpg : IsPage c r := hn.free_isPage (hf ▸ List.mem_cons_self)
  have hrp : r ≠ p := by
    rintro rfl
    exact hn.not_free Radix.self_mem_nodes (hf ▸ List.mem_cons_self)
  have hfree : s.freelist = r :: new ++ s'.freelist := by
    rw [hf, List.cons_append]
    congr 1
    exact h.free
  have hdisj : ∀ q ∈ s.nodesAt (l + 1) p, q ∉ r :: new := by
    intro q hq hm
    refine hn.not_free hq ?_
    rw [hfree]
    exact List.mem_append_left _ hm
  have hzero : (hang s p (sv39.digit (l + 1) v) r rest).mem r = Bytes.fill 0 := by
    unfold hang
    rw [Vm.setPte_mem_of_ne hrp, Vm.put_mem_self]
  have hmem : ∀ q, q ≠ p → q ≠ r → (hang s p (sv39.digit (l + 1) v) r rest).mem q = s.mem q := by
    intro q hqp hqr
    unfold hang
    rw [Vm.setPte_mem_of_ne hqp, Vm.put_mem_of_ne hqr, Vm.take_mem_of_ne hqr]
  have hnodes : (hang s p (sv39.digit (l + 1) v) r rest).nodesAt l r = {r} :=
    Radix.nodes_of_empty fun i _ => Vm.child_of_zero hzero
  -- the table itself has changed in the one entry
  have hp : s'.mem p = (hang s p (sv39.digit (l + 1) v) r rest).mem p := by
    refine h.frame p ?_ ?_
    · rw [hnodes, mem_singleton]
      exact hrp.symm
    · intro hm
      exact hdisj p Radix.self_mem_nodes (List.mem_cons_of_mem _ hm)
  have hpe : s'.pte p (sv39.digit (l + 1) v) = mkPte r 0 := by
    rw [Vm.pte_congr hp, mkPte_zero]
    unfold hang
    rw [Vm.pte_setPte_self, ← mkPte_zero, Nat.mod_eq_of_lt]
    have := @mkPte_lt r 0 (by decide) (by have := hpg.lt; omega)
    omega
  have hc' : sv39.child (s'.pte p (sv39.digit (l + 1) v)) = some r := by
    rw [hpe, child_of_valid (isValid_mkPte (by decide)),
      PTE2PA_mkPte (by decide) (by have := hpg.lt; omega) hpg.1]
  refine ⟨?_, ?_, ?_, ?_⟩
  · refine Vm.Grown.up hn.nodup hd hfree ?_ ?_ ?_ ?_ ?_
    · intro j hj hne
      rw [Vm.pte_congr hp]
      unfold hang
      rw [Vm.pte_setPte_of_ne fun h => hne h.2]
      refine Vm.pte_congr ?_
      rw [Vm.put_mem_of_ne hrp.symm, Vm.take_mem_of_ne hrp.symm]
    · intro q hqp _ hq
      have hqr : q ≠ r := fun h => hq (h ▸ List.mem_cons_self)
      rw [h.frame q (by rw [hnodes, mem_singleton]; exact hqr)
        fun hm => hq (List.mem_cons_of_mem _ hm), hmem q hqp hqr]
    · rw [Radix.under_of_child hc', Radix.under_of_none hc, zero_add]
      refine h.nodes.trans ?_
      rw [hnodes, ← cons_coe, singleton_add]
    · intro v' hv'
      rw [Vm.leafAt_of_child (c := r) (by rw [hv']; exact hc'),
        Vm.leafAt_of_no_child (by rw [hv']; exact hc), h.leaf v']
      exact Vm.leafAt_of_zero hzero
    · intro _
      refine ⟨fun _ => ?_, fun c' hcc => ?_⟩
      · rw [hpe, isLeaf_mkPte (by decide)]
        decide
      · rw [hc'] at hcc
        cases hcc
        refine h.inner (Radix.inner_of_empty (fun i _ => Vm.child_of_zero hzero) fun i _ => ?_)
        rw [Vm.pte_fill_zero hzero]
        exact fun hval => absurd hval not_isValid_zero
  · have hmiss : sv39.missing (hang s p (sv39.digit (l + 1) v) r rest).pte l r v = l :=
      Radix.missing_of_empty (fun i _ => Vm.child_of_zero hzero) fan_pos v
    have hcount := h.count
    rw [hmiss] at hcount
    have hlen : (hang s p (sv39.digit (l + 1) v) r rest).freelist = rest := rfl
    rw [hlen] at hcount
    rw [missing_of_no_child hc, hf, List.length_cons, List.length_cons, hcount]
    omega
  · have hmiss : sv39.missing (hang s p (sv39.digit (l + 1) v) r rest).pte l r v = l :=
      Radix.missing_of_empty (fun i _ => Vm.child_of_zero hzero) fan_pos v
    rw [missing_of_no_child hc, hf, List.length_cons, Radix.slot_succ_of_child hc']
    intro hle
    refine h.found ?_
    rw [hmiss]
    exact Nat.le_of_succ_le_succ hle
  · have hmiss : sv39.missing (hang s p (sv39.digit (l + 1) v) r rest).pte l r v = l :=
      Radix.missing_of_empty (fun i _ => Vm.child_of_zero hzero) fan_pos v
    rw [missing_of_no_child hc, hf, List.length_cons]
    intro hlt
    refine h.short ?_
    rw [hmiss]
    exact Nat.lt_of_succ_lt_succ hlt

theorem walkFrom_spec : ∀ {l p : Nat} {s : Vm}, Own c s (s.nodesAt l p) →
      wp (walkFrom va true l p) E (fun res s' => ∃ new, Walked s s' l p (vpn va) res new) s := by
  intro l
  induction l with
  | zero =>
    intro p s _
    refine ⟨[], Vm.Grown.refl rfl rfl, ?_, ?_, ?_⟩
    · simp [Radix.missing]
    · intro _
      refine ⟨rfl, _, rfl, ?_⟩
      rw [← digit_eq_PX]
      simp [Radix.slot, Radix.digit]
    · intro h
      simp [Radix.missing] at h
  | succ l ih =>
    intro p s hn
    unfold walkFrom
    rw [wp_bind, wp_loadPte]
    by_cases hv : isValid (s.pte p (PX (l + 1) va))
    · rw [if_pos hv]
      have hc : sv39.child (s.pte p (PX (l + 1) va)) = some (PTE2PA (s.pte p (PX (l + 1) va))) :=
        child_of_valid hv
      have hsub : Own c s (s.nodesAt l (PTE2PA (s.pte p (PX (l + 1) va)))) := by
        refine hn.mono (add_le_add_left ?_ _)
        unfold Vm.nodesAt
        rw [Radix.nodes_succ, ← Radix.under_of_child hc]
        refine le_trans ?_ (le_cons_self _ _)
        exact Finset.single_le_sum (f := fun i => sv39.under s.pte l (s.pte p i))
          (fun j _ => zero_le _) (Finset.mem_range.mpr (PX_lt (l + 1) va))
      refine wp_mono (ih hsub) ?_
      rintro res s' ⟨new, hw⟩
      exact ⟨new, hw.through hn (by rw [digit_eq_PX]) hv⟩
    · rw [if_neg hv, if_neg (by decide)]
      have hv' : ¬ isValid (s.pte p (sv39.digit (l + 1) (vpn va))) := by rwa [digit_eq_PX]
      cases hf : s.freelist with
      | nil =>
        rw [wp_bind, wp_kalloc_nil hf, if_pos rfl]
        have hmiss : sv39.missing s.pte (l + 1) p (vpn va) = l + 1 :=
          missing_of_no_child (child_of_invalid hv')
        refine ⟨[], Vm.Grown.refl rfl rfl, ?_, ?_, ?_⟩
        · rw [hf]; simp
        · rw [hmiss, hf]
          intro h
          simp at h
        · exact fun _ => ⟨rfl, rfl⟩
      | cons r rest =>
        have hpg : IsPage c r := hn.free_isPage (hf ▸ List.mem_cons_self)
        rw [wp_bind, wp_kalloc_cons hf, if_neg hpg.pos, wp_bind, wp_memset, wp_bind, wp_storePte]
        have hrp : r ≠ p := by
          rintro rfl
          exact hn.not_free Radix.self_mem_nodes (hf ▸ List.mem_cons_self)
        have hzero : (hang s p (PX (l + 1) va) r rest).mem r = Bytes.fill 0 := by
          unfold hang
          rw [Vm.setPte_mem_of_ne hrp, Vm.put_mem_self]
        have hsub : Own c (hang s p (PX (l + 1) va) r rest)
            ((hang s p (PX (l + 1) va) r rest).nodesAt l r) := by
          refine hn.mono ?_
          rw [show (hang s p (PX (l + 1) va) r rest).nodesAt l r = {r} from
            Radix.nodes_of_empty fun i _ => Vm.child_of_zero hzero, hf, ← cons_coe,
            singleton_add]
          exact le_add_left _ _
        refine wp_mono (ih hsub) ?_
        rintro res s' ⟨new, hw⟩
        rw [← digit_eq_PX] at hw
        exact ⟨r :: new, hw.hung hn hv' hf⟩

theorem wp_walk_alloc (h : va < MAXVA) (hn : Own c s (s.nodes r)) :
    wp (walk r va true) E (fun res s' => ∃ new, Walked s s' 2 r (vpn va) res new) s := by
  unfold walk
  rw [if_neg (Nat.not_le_of_lt h)]
  exact walkFrom_spec hn

end ZeptOS.Mem
