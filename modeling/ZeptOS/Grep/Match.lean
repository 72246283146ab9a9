import ZeptOS.Lib.Bytes
import ZeptOS.Lib.Loop

/-!
# The matcher of `user/grep.c`

`match`, `matchhere` and `matchstar` walk over two C strings in memory and call each other. The
functions are translated with the pointers of the source; the first argument bounds the rounds of
the loops and the depth of the recursion, and `none` says that it was not enough.

A pattern is read once, from left to right, as a list of items (`items`), and a list of items
matches a text or not (`Matches`) without any search. The matcher decides that, with fuel for the
bytes of the pattern and of the text.
-/

namespace ZeptOS.Grep

open Lib

variable {here : Nat → Option Bool} {t : List UInt8} {is : List Item}

abbrev STAR : UInt8 := 0x2a
abbrev DOT : UInt8 := 0x2e
abbrev DOLLAR : UInt8 := 0x24
abbrev CARET : UInt8 := 0x5e

/-! ## The source -/

/-- One round of the loops of `match` and `matchstar`: try here, and go on while `go` allows. -/
def tryRound (m : Bytes) (here : Nat → Option Bool) (go : UInt8 → Bool) (text : Nat) :
    Option (Nat ⊕ Bool) := do
  if ← here text then pure (.inr true)
  else if m text ≠ 0 ∧ go (m text) then pure (.inl (text + 1))
  else pure (.inr false)

/-- `matchstar(c, re, text)`, where `here` is `matchhere(re, ·)`. -/
def matchstar (m : Bytes) (here : Nat → Option Bool) (fuel : Nat) (c : UInt8) (text : Nat) :
    Option Bool :=
  loop (tryRound m here fun x => x == c || c == DOT) fuel text

def matchhere (m : Bytes) : Nat → Nat → Nat → Option Bool
  | 0, _, _ => none
  | fuel + 1, re, text =>
    if m re = 0 then some true
    else if m (re + 1) = STAR then matchstar m (matchhere m fuel (re + 2)) fuel (m re) text
    else if m re = DOLLAR ∧ m (re + 1) = 0 then some (m text == 0)
    else if m text ≠ 0 ∧ (m re = DOT ∨ m re = m text) then matchhere m fuel (re + 1) (text + 1)
    else some false

def match_ (m : Bytes) (fuel re text : Nat) : Option Bool :=
  if m re = CARET then matchhere m fuel (re + 1) text
  else loop (tryRound m (matchhere m fuel re) fun _ => true) fuel text

/-! ## What a pattern means -/

inductive Item where
  | star (c : UInt8)
  | fin
  | any
  | lit (c : UInt8)

def items : List UInt8 → List Item
  | [] => []
  | [c] => [if c = DOLLAR then .fin else if c = DOT then .any else .lit c]
  | c :: d :: re =>
    if d = STAR then .star c :: items re
    else (if c = DOT then .any else .lit c) :: items (d :: re)

def Matches : List Item → List UInt8 → Prop
  | [], _ => True
  | .star c :: is, t => ∃ pre post, t = pre ++ post ∧ (∀ x ∈ pre, x = c ∨ c = DOT) ∧ Matches is post
  | .fin :: is, t => t = [] ∧ Matches is t
  | .any :: is, t => ∃ x t', t = x :: t' ∧ Matches is t'
  | .lit c :: is, t => ∃ t', t = c :: t' ∧ Matches is t'

def Found (re t : List UInt8) : Prop :=
  if re.head? = some CARET then Matches (items re.tail) t
  else ∃ pre post, t = pre ++ post ∧ Matches (items re) post

/-! ## The matcher decides it -/

variable {m : Bytes} {fuel re text : Nat}

/-- A function has an answer, and it is yes exactly when something holds. -/
def Decides (r : Option Bool) (P : Prop) : Prop := ∃ b, r = some b ∧ (b = true ↔ P)

theorem Decides.congr {r : Option Bool} {P Q : Prop} (h : Decides r P) (hPQ : P ↔ Q) :
    Decides r Q := by
  obtain ⟨b, hb, hbP⟩ := h
  exact ⟨b, hb, hbP.trans hPQ⟩

theorem decides_try {go : UInt8 → Bool} {P : List UInt8 → Prop} :
    ∀ {t : List UInt8} {text fuel : Nat}, m.Str text t → t.length < fuel →
    (∀ pre post, t = pre ++ post → Decides (here (text + pre.length)) (P post)) →
    Decides (loop (tryRound m here go) fuel text)
      (∃ pre post, t = pre ++ post ∧ (∀ x ∈ pre, go x = true) ∧ P post) := by
  intro t
  induction t with
  | nil =>
    intro text fuel ht hf hP
    obtain ⟨b, hb, hbP⟩ := hP [] [] rfl
    obtain ⟨fuel, rfl⟩ : ∃ k, fuel = k + 1 := ⟨fuel - 1, by simp at hf; omega⟩
    have hz : m text = 0 := ht
    refine ⟨b, ?_, hbP.trans ⟨fun h => ⟨[], [], rfl, by simp, h⟩, ?_⟩⟩
    · simp only [List.length_nil, Nat.add_zero] at hb
      cases b <;> simp [loop, tryRound, hb, hz]
    · rintro ⟨pre, post, he, -, h⟩
      obtain ⟨rfl, rfl⟩ := List.append_eq_nil_iff.mp he.symm
      exact h
  | cons c t ih =>
    intro text fuel ht hf hP
    obtain ⟨b, hb, hbP⟩ := hP [] (c :: t) rfl
    obtain ⟨fuel, rfl⟩ : ∃ k, fuel = k + 1 := ⟨fuel - 1, by omega⟩
    obtain ⟨hc, hne, ht'⟩ := ht
    simp only [List.length_nil, Nat.add_zero] at hb
    cases b with
    | true => exact ⟨true, by simp [loop, tryRound, hb], by simpa using ⟨[], _, rfl, by simp, hbP.mp rfl⟩⟩
    | false =>
      have hno : ¬ P (c :: t) := fun h => absurd (hbP.mpr h) (by simp)
      by_cases hgo : go c = true
      · have hrest := ih ht' (by simpa using hf) fun pre post he => by
          have := hP (c :: pre) post (by rw [he]; rfl)
          rwa [List.length_cons, Nat.add_comm pre.length, ← Nat.add_assoc] at this
        have hstep : loop (tryRound m here go) (fuel + 1) text =
            loop (tryRound m here go) fuel (text + 1) := by
          simp [loop, tryRound, hb, hc, hne, hgo]
        rw [hstep]
        refine hrest.congr ⟨?_, ?_⟩
        · rintro ⟨pre, post, rfl, hpre, h⟩
          exact ⟨c :: pre, post, rfl, by simpa [hgo] using hpre, h⟩
        · rintro ⟨pre, post, he, hpre, h⟩
          cases pre with
          | nil =>
            obtain rfl : c :: t = post := he
            exact absurd h hno
          | cons x pre =>
            obtain ⟨rfl, rfl⟩ := List.cons.inj he
            exact ⟨pre, post, rfl, fun y hy => hpre y (List.mem_cons_of_mem _ hy), h⟩
      · refine ⟨false, by simp [loop, tryRound, hb, hc, hne, hgo], ⟨by simp, ?_⟩⟩
        rintro ⟨pre, post, he, hpre, h⟩
        cases pre with
        | nil =>
          obtain rfl : c :: t = post := he
          exact absurd h hno
        | cons x pre =>
          obtain ⟨rfl, rfl⟩ := List.cons.inj he
          exact absurd (hpre c List.mem_cons_self) hgo

theorem decides_star (ht : m.Str text t) (hf : t.length < fuel) (c : UInt8)
    (hrest : ∀ pre post, t = pre ++ post → Decides (here (text + pre.length)) (Matches is post)) :
    Decides (matchstar m here fuel c text) (Matches (.star c :: is) t) :=
  (decides_try ht hf hrest).congr (by simp [Matches])

theorem decides_one {c : UInt8} {rest : Option Bool} (ht : m.Str text t)
    (hrest : ∀ x t', t = x :: t' → Decides rest (Matches is t')) :
    Decides (if m text ≠ 0 ∧ (c = DOT ∨ c = m text) then rest else some false)
      (Matches ((if c = DOT then .any else .lit c) :: is) t) := by
  cases t with
  | nil =>
    have hz : m text = 0 := ht
    refine ⟨false, if_neg fun h => h.1 hz, ⟨nofun, fun h => ?_⟩⟩
    split at h <;> simp [Matches] at h
  | cons x t =>
    obtain ⟨hx, hne, -⟩ := ht
    rw [hx]
    by_cases hd : c = DOT
    · rw [if_pos ⟨hne, .inl hd⟩, if_pos hd]
      exact (hrest x t rfl).congr (by simp [Matches])
    by_cases he : c = x
    · rw [if_pos ⟨hne, .inr he⟩, if_neg hd]
      exact (hrest x t rfl).congr (by simp [Matches, he])
    · rw [if_neg fun h => h.2.elim hd he, if_neg hd]
      refine ⟨false, rfl, ⟨nofun, fun h => ?_⟩⟩
      obtain ⟨t', h, -⟩ := h
      exact absurd (List.cons.inj h).1.symm he

theorem matchhere_decides : ∀ {fuel re text : Nat} {p t : List UInt8}, m.Str re p → m.Str text t →
    p.length + t.length < fuel → Decides (matchhere m fuel re text) (Matches (items p) t) := by
  intro fuel
  induction fuel with
  | zero => intro re text p t _ _ hf; exact absurd hf (Nat.not_lt_zero _)
  | succ fuel ih =>
    intro re text p t hp ht hf
    cases p with
    | nil => exact ⟨true, if_pos hp, by simp [items, Matches]⟩
    | cons c p =>
      obtain ⟨hc, hne, hp⟩ := hp
      rw [List.length_cons] at hf
      have hone := decides_one (c := c) ht fun x t' he => by
        subst he
        exact ih hp ht.2.2 (by rw [List.length_cons] at hf; omega)
      unfold matchhere
      rw [hc, if_neg hne]
      cases p with
      | nil =>
        have hend : m (re + 1) = 0 := hp
        rw [hend, if_neg (by decide)]
        by_cases hd : c = DOLLAR
        · rw [if_pos ⟨hd, rfl⟩]
          refine ⟨_, rfl, ?_⟩
          rw [beq_iff_eq, items, if_pos hd]
          simp only [Matches, and_true]
          exact ht.eq_zero_iff
        · rw [if_neg fun h => hd h.1]
          simpa [items, hd] using hone
      | cons d p =>
        obtain ⟨hd, hdne, hp'⟩ := hp
        rw [hd]
        by_cases hs : d = STAR
        · rw [if_pos hs, items, if_pos hs]
          rw [List.length_cons] at hf
          refine decides_star ht (by omega) c fun pre post he => ?_
          subst he
          rw [List.length_append] at hf
          exact ih hp' ht.of_append (by omega)
        · rw [if_neg hs, if_neg fun h => hdne h.2, items, if_neg hs]
          exact hone

theorem decides_match {p : List UInt8} (hp : m.Str re p) (ht : m.Str text t)
    (hf : p.length + t.length < fuel) : Decides (match_ m fuel re text) (Found p t) := by
  unfold match_ Found
  by_cases hc : m re = CARET
  · cases p with
    | nil =>
      have hz : m re = 0 := hp
      rw [hz] at hc
      exact absurd hc (by decide)
    | cons c p =>
      obtain ⟨hre, -, hp⟩ := hp
      rw [List.length_cons] at hf
      rw [if_pos hc, if_pos (by simp [← hre, hc])]
      exact matchhere_decides (p := p) hp ht (by omega)
  · rw [if_neg hc, if_neg fun h => hc (hp.head h)]
    refine (decides_try (P := Matches (items p)) ht (by omega) fun pre post he => ?_).congr (by simp)
    subst he
    rw [List.length_append] at hf
    exact matchhere_decides hp ht.of_append (by omega)

/-- **The matcher decides the regular expression.** `match` decides whether the pattern is found in the
    text, `matchhere` whether its items match at the beginning of it, and `matchstar` whether they do so
    after some bytes that the star takes; each with one round a byte of the pattern and the text. -/
theorem match_decides {p t : List UInt8} (hp : m.Str re p) (ht : m.Str text t)
    (hf : p.length + t.length < fuel) : Decides (match_ m fuel re text) (Found p t) ∧
      Decides (matchhere m fuel re text) (Matches (items p) t) ∧
      ∀ c, Decides (matchstar m (matchhere m fuel re) fuel c text) (Matches (.star c :: items p) t) := by
  refine ⟨decides_match hp ht hf, matchhere_decides hp ht hf, fun c => ?_⟩
  refine decides_star ht (by omega) c fun pre post he => ?_
  subst he
  rw [List.length_append] at hf
  exact matchhere_decides hp ht.of_append (by omega)

/-- The pattern `^a*b` and the text `aab`, one behind the other. -/
def aStarB : Bytes := fun k => [CARET, 0x61, STAR, 0x62, 0, 0x61, 0x61, 0x62, 0].getD k 0

theorem match_decides_star : match_ aStarB 8 0 5 = some true ∧
    Decides (match_ aStarB 8 0 5) (Found [CARET, 0x61, STAR, 0x62] [0x61, 0x61, 0x62]) := by
  have hp : aStarB.Str 0 [CARET, 0x61, STAR, 0x62] :=
    ⟨rfl, by decide, rfl, by decide, rfl, by decide, rfl, by decide, rfl⟩
  have ht : aStarB.Str 5 [0x61, 0x61, 0x62] := ⟨rfl, by decide, rfl, by decide, rfl, by decide, rfl⟩
  exact ⟨by decide, (match_decides hp ht (by decide)).1⟩

end ZeptOS.Grep
