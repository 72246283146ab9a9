import Mathlib.Data.List.Basic

/-!
# Replaying a list of writes

The arithmetic of a redo log. A store is a function from addresses to contents, a log
a list of writes, and `replay` applies the writes in order, so that the last write to
an address is the one that counts.

Three facts carry every crash argument. A log decides only the addresses it names
(`replay_of_not_mem`), and those it decides whatever the store held before
(`replay_congr`). And a store may be moved towards its replay one address at a time
without the replay noticing (`replay_update`), which is why a crash in the middle of
the copying, or in the middle of copying again, is harmless.
-/

namespace ZeptOS.Lib

open Function

variable {A V : Type} [DecidableEq A]

def replay (ws : List (A × V)) (f : A → V) : A → V :=
  ws.foldl (fun g w => Function.update g w.1 w.2) f

@[simp] theorem replay_nil (f : A → V) : replay [] f = f := rfl

@[simp] theorem replay_cons (w : A × V) (ws : List (A × V)) (f : A → V) :
    replay (w :: ws) f = replay ws (update f w.1 w.2) := rfl

theorem replay_append (ws vs : List (A × V)) (f : A → V) :
    replay (ws ++ vs) f = replay vs (replay ws f) := by
  simp [replay, List.foldl_append]

theorem replay_concat (ws : List (A × V)) (a : A) (v : V) (f : A → V) :
    replay (ws ++ [(a, v)]) f = update (replay ws f) a v := by
  simp [replay_append]

theorem replay_of_not_mem {a : A} : ∀ {ws : List (A × V)} {f : A → V},
    a ∉ ws.map Prod.fst → replay ws f a = f a := by
  intro ws
  induction ws with
  | nil => intro f _; rfl
  | cons w ws ih =>
    intro f h
    rw [List.map_cons, List.mem_cons, not_or] at h
    rw [replay_cons, ih h.2, update_of_ne h.1]

theorem replay_congr {a : A} : ∀ {ws : List (A × V)} {f g : A → V},
    (a ∉ ws.map Prod.fst → f a = g a) → replay ws f a = replay ws g a := by
  intro ws
  induction ws with
  | nil => intro f g h; exact h (by simp)
  | cons w ws ih =>
    intro f g h
    rw [replay_cons, replay_cons]
    refine ih fun hws => ?_
    by_cases hw : a = w.1
    · rw [hw, update_self, update_self]
    · rw [update_of_ne hw, update_of_ne hw]
      exact h (by simp [hw, hws])

/-- Where the addresses of the log are pairwise different, each of its writes is the
    one that counts. -/
theorem replay_of_mem {a : A} {v : V} : ∀ {ws : List (A × V)} {f : A → V},
    (ws.map Prod.fst).Nodup → (a, v) ∈ ws → replay ws f a = v := by
  intro ws
  induction ws with
  | nil => intro f _ h; simp at h
  | cons w ws ih =>
    intro f hn hm
    rw [List.map_cons, List.nodup_cons] at hn
    rw [replay_cons]
    rcases List.mem_cons.mp hm with rfl | hm
    · rw [replay_of_not_mem hn.1, update_self]
    · exact ih hn.2 hm

/-- **Installing is invisible.** A store with one address already moved to its
    replayed contents replays to the same store. -/
theorem replay_update {ws : List (A × V)} {f : A → V} {a : A} :
    replay ws (update f a (replay ws f a)) = replay ws f := by
  funext x
  by_cases hx : x = a
  · subst hx
    by_cases hm : x ∈ ws.map Prod.fst
    · exact replay_congr fun h => absurd hm h
    · rw [replay_of_not_mem hm, update_self]
  · exact replay_congr fun _ => update_of_ne hx _ _

end ZeptOS.Lib
