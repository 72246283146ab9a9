import Mathlib.Data.List.Nodup

/-!
# Circular doubly linked lists with a head

The nodes are those of `ι` and a head, which is `none`. A list is what the pointers go through,
from the head back to the head; `insert` puts a node after the head and `remove` takes one out,
assignment by assignment. A loop over the nodes is `find`, in either direction, and it ends because
the pointers form a list.
-/

namespace ZeptOS.Lib

open Function

structure Links (ι : Type) where
  prev : Option ι → Option ι
  next : Option ι → Option ι

variable {fuel : Nat}

namespace Links

variable {ι : Type} {k k' : Links ι} {a b : Option ι} {i : ι} {l l' : List ι}

/-- From `a` the pointers go over the nodes of `l` to `b`, and back. -/
def Path (k : Links ι) : Option ι → List ι → Option ι → Prop
  | a, [], b => k.next a = b ∧ k.prev b = a
  | a, i :: l, b => (k.next a = some i ∧ k.prev (some i) = a) ∧ k.Path (some i) l b

structure Circular (k : Links ι) (l : List ι) : Prop where
  nodup : l.Nodup
  path : k.Path none l none

theorem path_append : k.Path a (l ++ i :: l') b ↔ k.Path a l (some i) ∧ k.Path (some i) l' b := by
  induction l generalizing a with
  | nil => rfl
  | cons j l ih =>
    rw [List.cons_append, Path, Path, ih, and_assoc, and_assoc, and_assoc]

theorem Path.next_mem (h : k.Path a l b) : k.next a = b ∨ ∃ j ∈ l, k.next a = some j := by
  cases l with
  | nil => exact .inl h.1
  | cons j l => exact .inr ⟨j, List.mem_cons_self, h.1.1⟩

theorem Path.prev_mem (h : k.Path a l b) : k.prev b = a ∨ ∃ j ∈ l, k.prev b = some j := by
  induction l generalizing a with
  | nil => exact .inl h.2
  | cons j l ih =>
    rcases ih h.2 with he | ⟨j', hj, he⟩
    · exact .inr ⟨j, List.mem_cons_self, he⟩
    · exact .inr ⟨j', List.mem_cons_of_mem _ hj, he⟩

theorem Path.congr (h : k.Path a l b) (hn : k'.next a = k.next a) (hp : k'.prev b = k.prev b)
    (hl : ∀ j ∈ l, k'.next (some j) = k.next (some j) ∧ k'.prev (some j) = k.prev (some j)) :
    k'.Path a l b := by
  induction l generalizing a with
  | nil => exact ⟨hn.trans h.1, hp.trans h.2⟩
  | cons j l ih =>
    have hj := hl j List.mem_cons_self
    exact ⟨⟨hn.trans h.1.1, hj.2.trans h.1.2⟩,
      ih h.2 hj.1 fun j' hj' => hl j' (List.mem_cons_of_mem _ hj')⟩

/-! ## The other way round -/

def flip (k : Links ι) : Links ι := ⟨k.next, k.prev⟩

theorem Path.flip (h : k.Path a l b) : k.flip.Path b l.reverse a := by
  induction l generalizing a with
  | nil => exact ⟨h.2, h.1⟩
  | cons j l ih =>
    rw [List.reverse_cons, path_append]
    exact ⟨ih h.2, h.1.2, h.1.1⟩

/-! ## Loops -/

/-- `for(b = first; b != &head; b = f(b)) if(p(b)) return b;`, for as long as `fuel` lasts. -/
def find (f : Option ι → Option ι) (p : ι → Bool) : Nat → Option ι → Option (Option ι)
  | 0, _ => none
  | _ + 1, none => some none
  | fuel + 1, some i => if p i then some (some i) else find f p fuel (f (some i))

theorem find_some {f : Option ι → Option ι} {p : ι → Bool}
    (h : find f p fuel a = some (some i)) : p i = true := by
  induction fuel generalizing a with
  | zero => cases h
  | succ fuel ih =>
    cases a with
    | none => cases h
    | some j =>
      rw [find] at h
      split at h
      · cases h
        assumption
      · exact ih h

theorem Path.find (h : k.Path a l none) (p : ι → Bool) (hf : l.length < fuel) :
    Links.find k.next p fuel (k.next a) = some (l.find? p) := by
  induction l generalizing a fuel with
  | nil =>
    obtain ⟨fuel, rfl⟩ := Nat.exists_eq_succ_of_ne_zero (Nat.ne_of_gt hf)
    rw [h.1]
    rfl
  | cons j l ih =>
    obtain ⟨fuel, rfl⟩ := Nat.exists_eq_succ_of_ne_zero (Nat.ne_zero_of_lt hf)
    rw [h.1.1, Links.find, List.find?_cons]
    cases p j with
    | true => rfl
    | false => exact ih h.2 (by simpa using hf)

theorem Circular.find_next (h : k.Circular l) (p : ι → Bool) (hf : l.length < fuel) :
    find k.next p fuel (k.next none) = some (l.find? p) := h.path.find p hf

theorem Circular.find_prev (h : k.Circular l) (p : ι → Bool) (hf : l.length < fuel) :
    find k.prev p fuel (k.prev none) = some (l.reverse.find? p) :=
  h.path.flip.find p (by simpa using hf)

/-! ## Surgery -/

variable [DecidableEq ι]

def setPrev (k : Links ι) (a b : Option ι) : Links ι := { k with prev := Function.update k.prev a b }
def setNext (k : Links ι) (a b : Option ι) : Links ι := { k with next := Function.update k.next a b }

@[simp] theorem setPrev_next : (k.setPrev a b).next = k.next := rfl
@[simp] theorem setNext_prev : (k.setNext a b).prev = k.prev := rfl
@[simp] theorem setPrev_prev_self : (k.setPrev a b).prev a = b := update_self ..
@[simp] theorem setNext_next_self : (k.setNext a b).next a = b := update_self ..

theorem setPrev_prev_of_ne {c : Option ι} (h : c ≠ a) : (k.setPrev a b).prev c = k.prev c :=
  update_of_ne h _ _

theorem setNext_next_of_ne {c : Option ι} (h : c ≠ a) : (k.setNext a b).next c = k.next c :=
  update_of_ne h _ _

def clear (k : Links ι) : Links ι := (k.setPrev none none).setNext none none

theorem Circular.clear (k : Links ι) : k.clear.Circular [] where
  nodup := List.nodup_nil
  path := by simp [Path, Links.clear]

def insert (k : Links ι) (i : ι) : Links ι :=
  let k := k.setNext (some i) (k.next none)
  let k := k.setPrev (some i) none
  let k := k.setPrev (k.next none) (some i)
  k.setNext none (some i)

theorem insert_eq {y : Option ι} (hy : k.next none = y) : k.insert i =
    (((k.setNext (some i) y).setPrev (some i) none).setPrev y (some i)).setNext none (some i) := by
  subst hy
  simp only [insert, setPrev_next, setNext_next_of_ne (show none ≠ some i from nofun)]

theorem Circular.insert (h : k.Circular l) (hi : i ∉ l) : (k.insert i).Circular (i :: l) where
  nodup := List.nodup_cons.mpr ⟨hi, h.nodup⟩
  path := by
    cases l with
    | nil =>
      rw [insert_eq h.path.1]
      simp [Path, setPrev_prev_of_ne, setNext_next_of_ne]
    | cons j l =>
      have hji : j ≠ i := fun he => hi (he ▸ List.mem_cons_self)
      have hjl : j ∉ l := (List.nodup_cons.mp h.nodup).1
      rw [insert_eq h.path.1.1]
      refine ⟨?_, ?_, h.path.2.congr ?_ ?_ fun j' hj' => ?_⟩
      · simp [setPrev_prev_of_ne, hji.symm]
      · simp [setNext_next_of_ne]
      · simp [setNext_next_of_ne, hji]
      · simp [setPrev_prev_of_ne]
      · have hne : j' ≠ i := fun he => hi (he ▸ List.mem_cons_of_mem _ hj')
        have hne' : j' ≠ j := fun he => hjl (he ▸ hj')
        simp [setPrev_prev_of_ne, setNext_next_of_ne, hne, hne']

theorem Circular.foldl_insert {is : List ι} (h : k.Circular l) (hnd : is.Nodup)
    (hd : ∀ i ∈ is, i ∉ l) : (is.foldl Links.insert k).Circular (is.reverse ++ l) := by
  induction is generalizing k l with
  | nil => exact h
  | cons i is ih =>
    rw [List.nodup_cons] at hnd
    rw [List.foldl_cons, List.reverse_cons, List.append_assoc]
    refine ih (h.insert (hd i List.mem_cons_self)) hnd.2 fun j hj hm => ?_
    rcases List.mem_cons.mp hm with rfl | hm
    · exact hnd.1 hj
    · exact hd j (List.mem_cons_of_mem _ hj) hm

def remove (k : Links ι) (i : ι) : Links ι :=
  let k := k.setPrev (k.next (some i)) (k.prev (some i))
  k.setNext (k.prev (some i)) (k.next (some i))

section Remove

variable {x y : Option ι}

theorem remove_eq (hx : k.prev (some i) = x) (hy : k.next (some i) = y) (hne : y ≠ some i) :
    k.remove i = (k.setPrev y x).setNext x y := by
  simp [remove, hx, hy, setPrev_prev_of_ne hne.symm]

theorem Path.remove (hl : k.Path a l (some i)) (hl' : k.Path (some i) l' b)
    (hnd : (l ++ i :: l').Nodup) (ha : ∀ j ∈ l ++ i :: l', a ≠ some j)
    (hb : ∀ j ∈ l ++ i :: l', b ≠ some j) : (k.remove i).Path a (l ++ l') b := by
  obtain ⟨-, hnd', hdisj⟩ := List.nodup_append.mp hnd
  obtain ⟨hil', hnd'⟩ := List.nodup_cons.mp hnd'
  have hy : k.next (some i) ≠ some i := by
    rcases hl'.next_mem with he | ⟨j, hj, he⟩ <;> rw [he]
    · exact hb i (by simp)
    · exact fun hji => hil' (Option.some.inj hji ▸ hj)
  rw [remove_eq rfl rfl hy]
  induction l generalizing a with
  | nil =>
    obtain ⟨-, hx⟩ := hl
    cases l' with
    | nil =>
      obtain ⟨hy, -⟩ := hl'
      simp [Path, hx, hy]
    | cons j l' =>
      obtain ⟨⟨hy, -⟩, hl'⟩ := hl'
      have hjl : j ∉ l' := (List.nodup_cons.mp hnd').1
      refine ⟨⟨by simp [hx, hy], by simp [hx, hy]⟩, hl'.congr ?_ ?_ fun j' hj' => ?_⟩
      · rw [hx, setNext_next_of_ne (ha j (by simp)).symm]
        rfl
      · rw [hy, setNext_prev, setPrev_prev_of_ne (hb j (by simp))]
      · have hne : some j' ≠ some j := fun he => hjl (Option.some.inj he ▸ hj')
        rw [hx, hy, setNext_prev, setNext_next_of_ne (ha j' (by simp [hj'])).symm,
          setPrev_prev_of_ne hne]
        exact ⟨rfl, rfl⟩
  | cons c l ih =>
    obtain ⟨⟨hnext, hprev⟩, hl⟩ := hl
    have hcl : c ∉ l ++ i :: l' := (List.nodup_cons.mp hnd).1
    have hxa : a ≠ k.prev (some i) := by
      rcases hl.prev_mem with he | ⟨j, hj, he⟩ <;> rw [he]
      · exact ha c (by simp)
      · exact ha j (by simp [hj])
    have hyc : some c ≠ k.next (some i) := by
      rcases hl'.next_mem with he | ⟨j, hj, he⟩ <;> rw [he]
      · exact (hb c (by simp)).symm
      · exact fun hcj => hcl (by simp [Option.some.inj hcj, hj])
    refine ⟨⟨?_, ?_⟩, ih hl (List.nodup_cons.mp hnd).2 ?_ ?_ ?_⟩
    · rw [setNext_next_of_ne hxa]
      exact hnext
    · rw [setNext_prev, setPrev_prev_of_ne hyc]
      exact hprev
    · exact fun j hj he => hcl (Option.some.inj he ▸ hj)
    · exact fun j hj => hb j (List.mem_cons_of_mem _ hj)
    · exact fun j hj => hdisj j (List.mem_cons_of_mem _ hj)

theorem Circular.remove (h : k.Circular (l ++ i :: l')) : (k.remove i).Circular (l ++ l') where
  nodup := h.nodup.sublist (by simp)
  path := by
    obtain ⟨hl, hl'⟩ := path_append.mp h.path
    exact hl.remove hl' h.nodup (fun _ _ => nofun) fun _ _ => nofun

theorem Circular.moveToFront (h : k.Circular l) (hi : i ∈ l) :
    ∃ l', ((k.remove i).insert i).Circular l' ∧ ∀ j, j ∈ l' ↔ j ∈ l := by
  obtain ⟨l₁, l₂, rfl⟩ := List.append_of_mem hi
  have hnot : i ∉ l₁ ++ l₂ := fun hm =>
    (List.nodup_middle.mp h.nodup).notMem hm
  refine ⟨_, h.remove.insert hnot, fun j => ?_⟩
  simp only [List.mem_cons, List.mem_append]
  tauto

end Remove

end Links

end ZeptOS.Lib
