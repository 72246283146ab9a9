import Mathlib.Data.List.Nodup

/-!
# Spin locks and who holds them

A lock says which agent holds it; an agent has a counter of the locks it holds. Where the
code of an agent says which locks it holds there, the three agree, and acquiring a free
lock and releasing a held one keep it so.
-/

namespace ZeptOS.Lib

open Function

variable {L H : Type} [DecidableEq L] [DecidableEq H]

structure Agree (lock : L → Option H) (count : H → Nat) (held : H → List L) : Prop where
  lock : ∀ l h, lock l = some h ↔ l ∈ held h
  count : ∀ h, count h = (held h).length
  nodup : ∀ h, (held h).Nodup

namespace Agree

variable {lock : L → Option H} {count : H → Nat} {held held' : H → List L} {l : L} {h h' : H}

omit [DecidableEq L] [DecidableEq H] in
theorem unique (a : Agree lock count held) (hl : l ∈ held h) (hl' : l ∈ held h') : h = h' := by
  rw [← a.lock] at hl hl'
  exact Option.some.inj (hl.symm.trans hl')

omit [DecidableEq L] [DecidableEq H] in
theorem not_held (a : Agree lock count held) (hl : lock l = none) (h : H) : l ∉ held h := by
  intro hm
  rw [← a.lock, hl] at hm
  cases hm

omit [DecidableEq L] [DecidableEq H] in
theorem congr (a : Agree lock count held) (hh : ∀ h, held' h = held h) :
    Agree lock count held' := by
  rw [show held' = held from funext hh]
  exact a

theorem acquire (a : Agree lock count held) (hl : lock l = none) (h1 : held' h = l :: held h)
    (h2 : ∀ g, g ≠ h → held' g = held g) :
    Agree (update lock l (some h)) (update count h (count h + 1)) held' where
  lock l' g := by
    by_cases hll : l' = l
    · subst hll
      rw [update_self]
      by_cases hg : g = h
      · simp [hg, h1]
      · simp [h2 g hg, a.not_held hl, Ne.symm hg]
    · rw [update_of_ne hll]
      by_cases hg : g = h
      · simp [hg, h1, hll, a.lock]
      · simp [h2 g hg, a.lock]
  count g := by
    by_cases hg : g = h
    · simp [hg, h1, a.count]
    · simp [hg, h2 g hg, a.count]
  nodup g := by
    by_cases hg : g = h
    · subst hg
      rw [h1]
      exact List.nodup_cons.mpr ⟨a.not_held hl g, a.nodup g⟩
    · rw [h2 g hg]
      exact a.nodup g

theorem release (a : Agree lock count held) (hl : lock l = some h)
    (h1 : held' h = (held h).erase l) (h2 : ∀ g, g ≠ h → held' g = held g) :
    Agree (update lock l none) (update count h (count h - 1)) held' where
  lock l' g := by
    have hmem := (a.lock l h).mp hl
    by_cases hll : l' = l
    · subst hll
      rw [update_self]
      by_cases hg : g = h
      · simp [hg, h1, (a.nodup h).mem_erase_iff]
      · simp only [reduceCtorEq, h2 g hg, false_iff]
        exact fun hm => hg (a.unique hm hmem)
    · rw [update_of_ne hll]
      by_cases hg : g = h
      · simp [hg, h1, (a.nodup h).mem_erase_iff, hll, a.lock]
      · simp [h2 g hg, a.lock]
  count g := by
    by_cases hg : g = h
    · subst hg
      rw [update_self, h1, List.length_erase_of_mem ((a.lock l g).mp hl), a.count]
    · simp [hg, h2 g hg, a.count]
  nodup g := by
    by_cases hg : g = h
    · subst hg
      rw [h1]
      exact (a.nodup g).erase l
    · rw [h2 g hg]
      exact a.nodup g

end Agree

end ZeptOS.Lib
