import Mathlib.Tactic.Abel
import Mathlib.Algebra.Order.BigOperators.Group.Finset

/-!
# Radix trees that live in a memory

A radix tree whose nodes are pages: a page holds `fan` words, a word of an interior page
may point to a page one level down, a word of a level-0 page is a leaf. The memory is
any function `rd` from a page and an index to a word; nothing here writes to it.

Three readings of the memory are defined by recursion on the level: the pages a tree
consists of (`nodes`), the word a key leads to (`slot`), and how many pages are missing
on the way there (`missing`). That the pages are pairwise distinct is not part of the
definitions; it is the hypothesis `(nodes rd l p).Nodup` of the lemmas that need it.

What a change of the memory does to the three is said by two lemmas. `setLeaf`: a write
to the slot of a key moves nothing. `change`: where only one word of a page and what
lies under it differ, the pages differ by what lies under that word before and after.
-/

namespace ZeptOS.Lib

open Multiset

variable {i v' : Nat}

/-- How words are read: how many a page holds and which point to a page. -/
structure Radix (P W : Type) where
  fan : Nat
  child : W → Option P

namespace Radix

variable {P W : Type} (F : Radix P W)

def digit (l v : Nat) : Nat := v / F.fan ^ l % F.fan

def nodes (rd : P → Nat → W) : Nat → P → Multiset P
  | 0, p => {p}
  | l + 1, p => p ::ₘ ∑ i ∈ Finset.range F.fan, (F.child (rd p i)).elim 0 (nodes rd l)

def under (rd : P → Nat → W) (l : Nat) (w : W) : Multiset P := (F.child w).elim 0 (F.nodes rd l)

/-- The page and index of the leaf word of a key, where the way to it exists. -/
def slot (rd : P → Nat → W) : Nat → P → Nat → Option (P × Nat)
  | 0, p, v => some (p, v % F.fan)
  | l + 1, p, v => (F.child (rd p (F.digit (l + 1) v))).bind fun c => slot rd l c v

/-- How many pages are missing on the way to the leaf word of a key. -/
def missing (rd : P → Nat → W) : Nat → P → Nat → Nat
  | 0, _, _ => 0
  | l + 1, p, v => (F.child (rd p (F.digit (l + 1) v))).elim (l + 1) fun c => missing rd l c v

def Inner (ok : W → Prop) (rd : P → Nat → W) : Nat → P → Prop
  | 0, _ => True
  | l + 1, p => ∀ i, i < F.fan → ok (rd p i) ∧ ∀ c, F.child (rd p i) = some c → Inner ok rd l c

variable {F} {rd rd' : P → Nat → W} {l : Nat} {p : P}

theorem nodes_zero : F.nodes rd 0 p = {p} := rfl

theorem nodes_succ : F.nodes rd (l + 1) p =
    p ::ₘ ∑ i ∈ Finset.range F.fan, F.under rd l (rd p i) := rfl

theorem self_mem_nodes : p ∈ F.nodes rd l p := by
  cases l with
  | zero => exact mem_singleton_self p
  | succ l => exact mem_cons_self _ _

theorem under_of_child {w : W} {c : P} (h : F.child w = some c) :
    F.under rd l w = F.nodes rd l c := by
  unfold under
  rw [h]
  rfl

theorem under_of_none {w : W} (h : F.child w = none) : F.under rd l w = 0 := by
  unfold under
  rw [h]
  rfl

theorem mem_under {w : W} {q : P} : q ∈ F.under rd l w ↔ ∃ c, F.child w = some c ∧
    q ∈ F.nodes rd l c := by
  unfold under
  cases F.child w with
  | none => simp
  | some c => simp

theorem mem_nodes_succ {q : P} : q ∈ F.nodes rd (l + 1) p ↔
    q = p ∨ ∃ i, i < F.fan ∧ q ∈ F.under rd l (rd p i) := by
  rw [nodes_succ, mem_cons, mem_sum]
  simp only [Finset.mem_range]

theorem nodes_child_subset (hi : i < F.fan) {c : P} (hc : F.child (rd p i) = some c)
    {q : P} (hq : q ∈ F.nodes rd l c) : q ∈ F.nodes rd (l + 1) p :=
  mem_nodes_succ.mpr (.inr ⟨i, hi, mem_under.mpr ⟨c, hc, hq⟩⟩)

theorem digit_lt (hfan : 0 < F.fan) (l v : Nat) : F.digit l v < F.fan := Nat.mod_lt _ hfan

/-! ## Distinct pages -/

section Distinct
variable (hn : (F.nodes rd (l + 1) p).Nodup)
include hn

theorem under_nodup (hi : i < F.fan) : (F.under rd l (rd p i)).Nodup := by
  rw [nodes_succ, nodup_cons] at hn
  exact nodup_of_le
    (Finset.single_le_sum (f := fun i => F.under rd l (rd p i))
      (fun j _ => zero_le _) (Finset.mem_range.mpr hi)) hn.2

theorem nodes_child_nodup (hi : i < F.fan) {c : P} (hc : F.child (rd p i) = some c) :
    (F.nodes rd l c).Nodup := by
  rw [← under_of_child hc]
  exact under_nodup hn hi

theorem root_not_mem_under (hi : i < F.fan) : p ∉ F.under rd l (rd p i) := by
  rw [nodes_succ, nodup_cons] at hn
  intro h
  exact hn.1 (mem_sum.mpr ⟨i, Finset.mem_range.mpr hi, h⟩)

theorem under_disjoint {j : Nat} (hi : i < F.fan) (hj : j < F.fan) (hij : i ≠ j) {q : P}
    (hqi : q ∈ F.under rd l (rd p i)) : q ∉ F.under rd l (rd p j) := by
  classical
  intro hqj
  rw [nodes_succ, nodup_cons] at hn
  have hsum := hn.2
  rw [← Finset.add_sum_erase _ _ (Finset.mem_range.mpr hi), nodup_add] at hsum
  refine disjoint_left.mp hsum.2.2 hqi ?_
  exact mem_sum.mpr ⟨j, Finset.mem_erase.mpr ⟨hij.symm, Finset.mem_range.mpr hj⟩, hqj⟩

end Distinct

/-! ## Trees that agree -/

theorem nodes_congr : ∀ {l : Nat} {p : P},
    (∀ q ∈ F.nodes rd l p, ∀ i, i < F.fan → rd' q i = rd q i) →
      F.nodes rd' l p = F.nodes rd l p := by
  intro l
  induction l with
  | zero => intro p _; rfl
  | succ l ih =>
    intro p h
    rw [nodes_succ, nodes_succ]
    congr 1
    refine Finset.sum_congr rfl fun i hi => ?_
    have hi := Finset.mem_range.mp hi
    rw [h p self_mem_nodes i hi]
    cases hc : F.child (rd p i) with
    | none => rw [under_of_none hc, under_of_none hc]
    | some c =>
      rw [under_of_child hc, under_of_child hc]
      exact ih fun q hq => h q (nodes_child_subset hi hc hq)

variable {v : Nat}

theorem slot_congr (hfan : 0 < F.fan) : ∀ {l : Nat} {p : P},
    (∀ q ∈ F.nodes rd l p, ∀ i, i < F.fan → rd' q i = rd q i) →
      F.slot rd' l p v = F.slot rd l p v := by
  intro l
  induction l with
  | zero => intro p _; rfl
  | succ l ih =>
    intro p h
    have hd := digit_lt (F := F) hfan (l + 1) v
    rw [slot, slot, h p self_mem_nodes _ hd]
    cases hc : F.child (rd p (F.digit (l + 1) v)) with
    | none => rfl
    | some c => exact ih fun q hq => h q (nodes_child_subset hd hc hq)

variable {ok : W → Prop}

theorem inner_congr : ∀ {l : Nat} {p : P},
    (∀ q ∈ F.nodes rd l p, ∀ i, i < F.fan → rd' q i = rd q i) →
      F.Inner ok rd l p → F.Inner ok rd' l p := by
  intro l
  induction l with
  | zero => intro p _ _; trivial
  | succ l ih =>
    intro p h hin i hi
    rw [h p self_mem_nodes i hi]
    refine ⟨(hin i hi).1, fun c hc => ?_⟩
    exact ih (fun q hq => h q (nodes_child_subset hi hc hq)) ((hin i hi).2 c hc)

/-! ## Slots -/

theorem slot_succ_of_child {c : P} (hc : F.child (rd p (F.digit (l + 1) v)) = some c) :
    F.slot rd (l + 1) p v = F.slot rd l c v := by
  rw [slot, hc]
  rfl

theorem slot_succ_of_none (hc : F.child (rd p (F.digit (l + 1) v)) = none) :
    F.slot rd (l + 1) p v = none := by
  rw [slot, hc]
  rfl

theorem slot_mem (hfan : 0 < F.fan) {q : P} : ∀ {l : Nat} {p : P},
    F.slot rd l p v = some (q, i) → q ∈ F.nodes rd l p ∧ i = v % F.fan := by
  intro l
  induction l with
  | zero =>
    intro p h
    cases h
    exact ⟨self_mem_nodes, rfl⟩
  | succ l ih =>
    intro p h
    cases hc : F.child (rd p (F.digit (l + 1) v)) with
    | none => rw [slot_succ_of_none hc] at h; cases h
    | some c =>
      rw [slot_succ_of_child hc] at h
      obtain ⟨hq, hi⟩ := ih h
      exact ⟨nodes_child_subset (digit_lt hfan _ _) hc hq, hi⟩

theorem slot_inj (hfan : 0 < F.fan) {x : P × Nat} : ∀ {l : Nat} {p : P},
    (F.nodes rd l p).Nodup → F.slot rd l p v = some x → F.slot rd l p v' = some x →
      v % F.fan ^ (l + 1) = v' % F.fan ^ (l + 1) := by
  intro l
  induction l with
  | zero =>
    intro p _ h h'
    rw [← h'] at h
    simp only [slot, Option.some.injEq, Prod.mk.injEq, true_and] at h
    simpa using h
  | succ l ih =>
    intro p hn h h'
    obtain ⟨q, i⟩ := x
    cases hc : F.child (rd p (F.digit (l + 1) v)) with
    | none => rw [slot_succ_of_none hc] at h; cases h
    | some c =>
      cases hc' : F.child (rd p (F.digit (l + 1) v')) with
      | none => rw [slot_succ_of_none hc'] at h'; cases h'
      | some c' =>
        rw [slot_succ_of_child hc] at h
        rw [slot_succ_of_child hc'] at h'
        have hd := digit_lt (F := F) hfan (l + 1) v
        -- the two ways go through the same word, since what lies under two words is disjoint
        have hdd : F.digit (l + 1) v = F.digit (l + 1) v' := by
          by_contra hne
          exact under_disjoint hn hd (digit_lt hfan _ _) hne
            (mem_under.mpr ⟨c, hc, (slot_mem hfan h).1⟩)
            (mem_under.mpr ⟨c', hc', (slot_mem hfan h').1⟩)
        rw [← hdd, hc] at hc'
        cases hc'
        have hlow := ih (nodes_child_nodup hn hd hc) h h'
        unfold digit at hdd
        rw [Nat.pow_succ F.fan (l + 1), Nat.mod_mul, Nat.mod_mul, hlow, hdd]

theorem digit_mod (l v : Nat) : F.digit l (v % F.fan ^ (l + 1)) = F.digit l v := by
  unfold digit
  rw [Nat.pow_succ, Nat.mod_mul_right_div_self, Nat.mod_mod]

theorem slot_mod : ∀ {l : Nat} {p : P},
    v % F.fan ^ (l + 1) = v' % F.fan ^ (l + 1) → F.slot rd l p v = F.slot rd l p v' := by
  intro l
  induction l with
  | zero =>
    intro p h
    rw [Nat.pow_one] at h
    rw [slot, slot, h]
  | succ l ih =>
    intro p h
    have hd : F.digit (l + 1) v = F.digit (l + 1) v' := by
      rw [← digit_mod, h, digit_mod]
    have hlow : v % F.fan ^ (l + 1) = v' % F.fan ^ (l + 1) := by
      have hdvd : F.fan ^ (l + 1) ∣ F.fan ^ (l + 1 + 1) := Nat.pow_dvd_pow _ (Nat.le_succ _)
      rw [← Nat.mod_mod_of_dvd v hdvd, h, Nat.mod_mod_of_dvd v' hdvd]
    rw [slot, slot, hd]
    cases F.child (rd p (F.digit (l + 1) v')) with
    | none => rfl
    | some c => exact ih hlow

theorem missing_eq_zero : ∀ {l : Nat} {p : P},
    F.missing rd l p v = 0 ↔ (F.slot rd l p v).isSome = true := by
  intro l
  induction l with
  | zero => intro p; simp [missing, slot]
  | succ l ih =>
    intro p
    rw [missing, slot]
    cases F.child (rd p (F.digit (l + 1) v)) with
    | none => simp
    | some c => exact ih

theorem missing_le : ∀ {l : Nat} {p : P}, F.missing rd l p v ≤ l := by
  intro l
  induction l with
  | zero => intro p; exact Nat.le_refl _
  | succ l ih =>
    intro p
    rw [missing]
    cases F.child (rd p (F.digit (l + 1) v)) with
    | none => exact Nat.le_refl _
    | some c => exact Nat.le_succ_of_le ih

theorem slot_sibling (h : v / F.fan = v' / F.fan) : ∀ {l : Nat} {p : P},
    (F.slot rd l p v).isSome = (F.slot rd l p v').isSome := by
  intro l
  induction l with
  | zero => intro p; rfl
  | succ l ih =>
    intro p
    have hd : F.digit (l + 1) v = F.digit (l + 1) v' := by
      unfold digit
      rw [Nat.pow_succ, Nat.mul_comm, ← Nat.div_div_eq_div_mul, ← Nat.div_div_eq_div_mul, h]
    rw [slot, slot, hd]
    cases F.child (rd p (F.digit (l + 1) v')) with
    | none => rfl
    | some c => exact ih

/-! ## Changes -/

/-- **Writing to the slot of a key** moves no page and no slot. -/
theorem setLeaf (hfan : 0 < F.fan) {q : P}
    (hrd : ∀ q' i', i' < F.fan → ¬ (q' = q ∧ i' = i) → rd' q' i' = rd q' i') :
    ∀ {l : Nat} {p : P}, (F.nodes rd l p).Nodup → F.slot rd l p v = some (q, i) →
      F.nodes rd' l p = F.nodes rd l p ∧ (∀ v', F.slot rd' l p v' = F.slot rd l p v') ∧
        (F.Inner ok rd l p → F.Inner ok rd' l p) := by
  intro l
  induction l with
  | zero => intro p _ _; exact ⟨rfl, fun _ => rfl, id⟩
  | succ l ih =>
    intro p hn hs
    have hd := digit_lt (F := F) hfan (l + 1) v
    cases hc : F.child (rd p (F.digit (l + 1) v)) with
    | none => rw [slot_succ_of_none hc] at hs; cases hs
    | some c =>
      rw [slot_succ_of_child hc] at hs
      have hq : q ∈ F.under rd l (rd p (F.digit (l + 1) v)) :=
        mem_under.mpr ⟨c, hc, (slot_mem hfan hs).1⟩
      have hqp : p ≠ q := fun he => root_not_mem_under hn hd (he ▸ hq)
      have hroot : ∀ j, j < F.fan → rd' p j = rd p j :=
        fun j hj => hrd p j hj fun h => hqp h.1
      obtain ⟨ihn, ihs, ihi⟩ := ih (nodes_child_nodup hn hd hc) hs
      have hother : ∀ j, j < F.fan → j ≠ F.digit (l + 1) v → ∀ c', F.child (rd p j) = some c' →
          ∀ q' ∈ F.nodes rd l c', ∀ k, k < F.fan → rd' q' k = rd q' k := by
        intro j hj hne c' hc' q' hq' k hk
        refine hrd q' k hk fun h => ?_
        exact under_disjoint hn hd hj hne.symm hq (h.1 ▸ mem_under.mpr ⟨c', hc', hq'⟩)
      refine ⟨?_, ?_, ?_⟩
      · rw [nodes_succ, nodes_succ]
        congr 1
        refine Finset.sum_congr rfl fun j hj => ?_
        have hj := Finset.mem_range.mp hj
        rw [hroot j hj]
        cases hc' : F.child (rd p j) with
        | none => rw [under_of_none hc', under_of_none hc']
        | some c' =>
          rw [under_of_child hc', under_of_child hc']
          by_cases hjd : j = F.digit (l + 1) v
          · rw [hjd, hc] at hc'
            cases hc'
            exact ihn
          · exact nodes_congr (hother j hj hjd c' hc')
      · intro v'
        have hd' := digit_lt (F := F) hfan (l + 1) v'
        rw [slot, slot, hroot _ hd']
        cases hc' : F.child (rd p (F.digit (l + 1) v')) with
        | none => rfl
        | some c' =>
          simp only [Option.bind_some]
          by_cases hjd : F.digit (l + 1) v' = F.digit (l + 1) v
          · rw [hjd, hc] at hc'
            cases hc'
            exact ihs v'
          · exact slot_congr hfan (hother _ hd' hjd c' hc')
      · intro hin j hj
        rw [hroot j hj]
        refine ⟨(hin j hj).1, fun c' hc' => ?_⟩
        by_cases hjd : j = F.digit (l + 1) v
        · rw [hjd, hc] at hc'
          cases hc'
          exact ihi ((hin _ hd).2 _ hc)
        · exact inner_congr (hother j hj hjd c' hc') ((hin j hj).2 c' hc')

/-- The memory differs from another in one word of `p` and under it only. -/
def Differs (F : Radix P W) (rd rd' : P → Nat → W) (l : Nat) (p : P) (i : Nat) : Prop :=
  ∀ j, j < F.fan → j ≠ i → rd' p j = rd p j ∧ ∀ c, F.child (rd p j) = some c →
    ∀ q ∈ F.nodes rd l c, ∀ k, k < F.fan → rd' q k = rd q k

section Change
variable (h : F.Differs rd rd' l p i)
include h

/-- **What lies under one word** is all by which the pages then differ. -/
theorem nodes_change (hi : i < F.fan) : F.nodes rd' (l + 1) p + F.under rd l (rd p i) =
      F.nodes rd (l + 1) p + F.under rd' l (rd' p i) := by
  have hsum : ∑ j ∈ (Finset.range F.fan).erase i, F.under rd' l (rd' p j) =
      ∑ j ∈ (Finset.range F.fan).erase i, F.under rd l (rd p j) := by
    refine Finset.sum_congr rfl fun j hj => ?_
    obtain ⟨hne, hj⟩ := Finset.mem_erase.mp hj
    obtain ⟨hw, hu⟩ := h j (Finset.mem_range.mp hj) hne
    rw [hw]
    cases hc : F.child (rd p j) with
    | none => rw [under_of_none hc, under_of_none hc]
    | some c =>
      rw [under_of_child hc, under_of_child hc]
      exact nodes_congr (hu c hc)
  rw [nodes_succ, nodes_succ, ← Finset.add_sum_erase _ _ (Finset.mem_range.mpr hi),
    ← Finset.add_sum_erase _ _ (Finset.mem_range.mpr hi), hsum]
  simp only [← singleton_add]
  abel

theorem slot_change (hfan : 0 < F.fan) (hv : F.digit (l + 1) v ≠ i) :
    F.slot rd' (l + 1) p v = F.slot rd (l + 1) p v := by
  obtain ⟨hw, hu⟩ := h _ (digit_lt hfan (l + 1) v) hv
  rw [slot, slot, hw]
  cases hc : F.child (rd p (F.digit (l + 1) v)) with
  | none => rfl
  | some c => exact slot_congr hfan (hu c hc)

theorem inner_change (hin : F.Inner ok rd (l + 1) p)
    (hi : ok (rd' p i) ∧ ∀ c, F.child (rd' p i) = some c → F.Inner ok rd' l c) :
    F.Inner ok rd' (l + 1) p := by
  intro j hj
  by_cases hji : j = i
  · rw [hji]
    exact hi
  · obtain ⟨hw, hu⟩ := h j hj hji
    rw [hw]
    exact ⟨(hin j hj).1, fun c hc => inner_congr (hu c hc) ((hin j hj).2 c hc)⟩

end Change

/-! ## Empty pages -/

section Empty
variable (h : ∀ i, i < F.fan → F.child (rd p i) = none)
include h

theorem nodes_of_empty : F.nodes rd l p = {p} := by
  cases l with
  | zero => rfl
  | succ l =>
    rw [nodes_succ, Finset.sum_eq_zero fun i hi => under_of_none (h i (Finset.mem_range.mp hi))]
    rfl

theorem inner_of_empty (hok : ∀ i, i < F.fan → ok (rd p i)) : F.Inner ok rd l p := by
  cases l with
  | zero => trivial
  | succ l =>
    intro i hi
    refine ⟨hok i hi, fun c hc => ?_⟩
    rw [h i hi] at hc
    cases hc

theorem missing_of_empty (hfan : 0 < F.fan) (v : Nat) : F.missing rd l p v = l := by
  cases l with
  | zero => rfl
  | succ l =>
    rw [missing, h _ (digit_lt hfan _ _)]
    rfl

end Empty

-- from here on only the lemmas above: unifying with a sum over `fan` words is hopeless
attribute [irreducible] nodes

end Radix
end ZeptOS.Lib
