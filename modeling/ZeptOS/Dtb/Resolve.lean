import ZeptOS.Dtb.Find

/-!
# Which paths `dtb_find` gets right

What a path means: a node at its depth whose chain of ancestors matches it, component by
component (`Resolves`). Among siblings whose names differ before the `@` there is at most
one such node, and `lookup` computes it.

The scan of `dtb_find` computes `search`. The two agree as long as no node that matches a
proper prefix of the path is without children. Behind one that is, the scan compares the
rest of the path with the nodes that follow, which are siblings of that node or of one of
its ancestors; `Strays` says that it finds something there.
-/

namespace ZeptOS.Dtb

open Lib

variable {cs : Path}

/-! ## What a path means -/

/-- A node below `nodes` whose chain of ancestors matches the path. -/
inductive Leads : List (Nat × Node) → Path → Nat × Node → Prop
  | last {nodes : List (Nat × Node)} {c : List UInt8} {x : Nat × Node} (hx : x ∈ nodes)
      (hm : matchesName c x.2.name = true) : Leads nodes [c] x
  | step {nodes : List (Nat × Node)} {c : List UInt8} {cs : Path} {x y : Nat × Node}
      (hx : x ∈ nodes) (hm : matchesName c x.2.name = true)
      (h : Leads (x.2.childrenAt x.1) cs y) : Leads nodes (c :: cs) y

/-- **The node at `b` is at the depth of the path and its ancestors match it**, in the
    tree whose structure block is at `a`. -/
def Tree.Resolves (t : Tree) (a : Nat) : Path → Nat → Prop
  | [], b => b = a
  | cs, b => ∃ n, Leads (t.root.childrenAt a) cs (b, n)

def stem (name : List UInt8) : List UInt8 := name.takeWhile (· ≠ AT)

def Forest.stems : Forest → List (List UInt8)
  | .nil => []
  | .cons _ name _ _ _ rest => stem name :: rest.stems

/-- No two siblings have the same name up to the first `@`. -/
def Forest.Distinct : Forest → Prop
  | .nil => True
  | .cons _ name _ children _ rest => stem name ∉ rest.stems ∧ children.Distinct ∧ rest.Distinct

instance : DecidablePred Forest.Distinct := go
where
  go : (f : Forest) → Decidable f.Distinct
  | .nil => .isTrue trivial
  | .cons _ name _ children _ rest =>
    have := go children
    have := go rest
    inferInstanceAs (Decidable (stem name ∉ rest.stems ∧ children.Distinct ∧ rest.Distinct))

theorem stem_append (c u : List UInt8) : stem (c ++ AT :: u) = stem c := by
  induction c with
  | nil => rfl
  | cons x c ih =>
    simp only [stem, List.cons_append, List.takeWhile_cons] at ih ⊢
    rw [ih]

theorem stem_of_matches {c name : List UInt8} (h : matchesName c name = true) :
    stem name = stem c := by
  rcases matchesName_iff.mp h with rfl | ⟨u, rfl⟩
  · rfl
  · exact stem_append c u

def lookup : Forest → Nat → Path → Option Nat
  | .nil, _, _ => none
  | .cons _ _ _ _ _ _, _, [] => none
  | .cons nops name props children endNops rest, a, c :: cs =>
    let n : Node := ⟨name, props, children, endNops⟩
    let b := a + 4 * nops
    if matchesName c name then
      if cs = [] then some b else lookup children (n.inner b) cs
    else lookup rest (b + 4 * wordsOf n.tokens) (c :: cs)

variable {f : Forest}

theorem lookup_sound : ∀ {a b : Nat} {cs : Path}, lookup f a cs = some b →
    ∃ n, Leads (f.nodes a) cs (b, n) := by
  induction f with
  | nil => intro a b cs h; exact absurd h (by simp [lookup])
  | cons nops name props children endNops rest ihc ihr =>
    intro a b cs h
    cases cs with
    | nil => exact absurd h (by simp [lookup])
    | cons c cs =>
      simp only [lookup] at h
      by_cases hm : matchesName c name = true
      · rw [if_pos hm] at h
        by_cases hcs : cs = []
        · rw [if_pos hcs] at h
          cases h
          subst hcs
          exact ⟨_, .last List.mem_cons_self hm⟩
        · rw [if_neg hcs] at h
          obtain ⟨n, hn⟩ := ihc h
          exact ⟨n, .step List.mem_cons_self hm hn⟩
      · rw [if_neg hm] at h
        obtain ⟨n, hn⟩ := ihr h
        cases hn with
        | last hx hx' => exact ⟨n, .last (List.mem_cons_of_mem _ hx) hx'⟩
        | step hx hx' hl => exact ⟨n, .step (List.mem_cons_of_mem _ hx) hx' hl⟩

theorem stem_mem : ∀ {a : Nat} {x : Nat × Node}, x ∈ f.nodes a → stem x.2.name ∈ f.stems := by
  induction f with
  | nil => intro a x h; exact absurd h (by simp [Forest.nodes])
  | cons nops name props children endNops rest _ ih =>
    intro a x h
    rcases List.mem_cons.mp h with rfl | h
    · exact List.mem_cons_self
    · exact List.mem_cons_of_mem _ (ih h)

/-- **A path leads to one node at most**, because siblings differ before the `@`. -/
theorem lookup_complete : ∀ {a : Nat} {cs : Path} {y : Nat × Node}, f.Distinct →
    Leads (f.nodes a) cs y → lookup f a cs = some y.1 := by
  induction f with
  | nil =>
    intro a cs y _ h
    cases h with
    | last hx _ => exact absurd hx (by simp [Forest.nodes])
    | step hx _ _ => exact absurd hx (by simp [Forest.nodes])
  | cons nops name props children endNops rest ihc ihr =>
    intro a cs y hd h
    obtain ⟨hstem, hdc, hdr⟩ := hd
    -- a later sibling that matches would have the same stem
    have hlater : ∀ {c x}, x ∈ rest.nodes (a + 4 * nops +
        4 * wordsOf (Node.tokens ⟨name, props, children, endNops⟩)) →
        matchesName c x.2.name = true → matchesName c name ≠ true := by
      intro c x hx hm hm'
      refine hstem ?_
      rw [stem_of_matches hm', ← stem_of_matches hm]
      exact stem_mem hx
    cases h with
    | last hx hm =>
      rename_i c
      simp only [lookup]
      rcases List.mem_cons.mp hx with rfl | hx
      · rw [if_pos hm, if_pos trivial]
      · rw [if_neg (hlater hx hm)]
        exact ihr hdr (.last hx hm)
    | step hx hm hl =>
      rename_i c cs x
      simp only [lookup]
      rcases List.mem_cons.mp hx with rfl | hx
      · have hcs : cs ≠ [] := by
          cases hl <;> simp
        rw [if_pos hm, if_neg hcs]
        exact ihc hdc hl
      · rw [if_neg (hlater hx hm)]
        exact ihr hdr (.step hx hm hl)

/-! ## Where the scan goes astray -/

def Forest.finds : Forest → Path → Bool
  | .nil, _ => false
  | .cons _ _ _ _ _ _, [] => false
  | .cons _ name _ children _ rest, c :: cs =>
    if matchesName c name then cs == [] || children.finds cs else rest.finds (c :: cs)

def Forest.isNil : Forest → Bool
  | .nil => true
  | _ => false

/-- **The scan goes astray**: the path leads, by a proper prefix, to a node without
    children, and the rest of it can be read off the nodes that follow that node. `after`
    are the siblings that follow the forest's parent, its parent's parent, and so on. -/
inductive Strays : Forest → List Forest → Path → Prop
  | leaf {nops endNops : Nat} {name c : List UInt8} {props : List Property} {rest g : Forest}
      {after gs : List Forest} {cs : Path} (hm : matchesName c name = true) (hcs : cs ≠ [])
      (hg : (rest :: after).dropWhile Forest.isNil = g :: gs) (h : g.finds cs = true) :
      Strays (.cons nops name props .nil endNops rest) after (c :: cs)
  | again {nops endNops : Nat} {name c : List UInt8} {props : List Property} {rest g : Forest}
      {after gs : List Forest} {cs : Path} (hm : matchesName c name = true) (hcs : cs ≠ [])
      (hg : (rest :: after).dropWhile Forest.isNil = g :: gs) (h : Strays g gs cs) :
      Strays (.cons nops name props .nil endNops rest) after (c :: cs)
  | child {nops endNops : Nat} {name c : List UInt8} {props : List Property}
      {children rest : Forest} {after : List Forest} {cs : Path}
      (hm : matchesName c name = true) (h : Strays children (rest :: after) cs) :
      Strays (.cons nops name props children endNops rest) after (c :: cs)
  | next {nops endNops : Nat} {name c : List UInt8} {props : List Property}
      {children rest : Forest} {after : List Forest} {cs : Path}
      (hm : matchesName c name ≠ true) (h : Strays rest after (c :: cs)) :
      Strays (.cons nops name props children endNops rest) after (c :: cs)

variable {after : List Forest}

theorem Strays.ne_nil (h : Strays f after cs) : cs ≠ [] := by
  cases h <;> simp

/-- What the scan finds in the forests of a stack, each with its address. -/
def searchStack : List (Forest × Nat) → Path → Option Nat
  | [], _ => none
  | (f, a) :: st, cs => search f a (searchStack st) cs

theorem lookup_isSome : ∀ {a : Nat} {cs : Path}, (lookup f a cs).isSome = f.finds cs := by
  induction f with
  | nil => intro a cs; rfl
  | cons nops name props children endNops rest ihc ihr =>
    intro a cs
    cases cs with
    | nil => rfl
    | cons c cs =>
      simp only [lookup, Forest.finds]
      split
      · by_cases hcs : cs = []
        · simp [hcs]
        · rw [if_neg hcs, ihc]
          simp [hcs]
      · exact ihr

theorem search_of_finds : ∀ {a : Nat} {cs : Path} {up : Path → Option Nat},
    f.finds cs = true → search f a up cs = lookup f a cs := by
  induction f with
  | nil => intro a cs up h; exact absurd h (by simp [Forest.finds])
  | cons nops name props children endNops rest ihc ihr =>
    intro a cs up h
    cases cs with
    | nil => exact absurd h (by simp [Forest.finds])
    | cons c cs =>
      simp only [Forest.finds] at h
      simp only [search, lookup]
      by_cases hm : matchesName c name = true
      · rw [if_pos hm] at h ⊢
        rw [if_pos hm]
        by_cases hcs : cs = []
        · rw [if_pos hcs, if_pos hcs]
        · rw [if_neg hcs, if_neg hcs]
          exact ihc (by simpa [hcs] using h)
      · rw [if_neg hm] at h ⊢
        rw [if_neg hm]
        cases hr : rest with
        | nil =>
          rw [hr] at h
          exact absurd h (by simp [Forest.finds])
        | cons nops' name' props' children' endNops' rest' =>
          rw [hr] at h ihr
          exact ihr h

theorem Strays.not_finds (h : Strays f after cs) : f.finds cs = false := by
  induction h with
  | leaf hm hcs _ _ => simp [Forest.finds, hm, hcs]
  | again hm hcs _ _ _ => simp [Forest.finds, hm, hcs]
  | child hm h ih => simp [Forest.finds, hm, h.ne_nil, ih]
  | next hm _ ih => simp [Forest.finds, hm, ih]

theorem searchStack_dropWhile {st : List (Forest × Nat)} :
    searchStack (st.dropWhile fun x => x.1.isNil) cs = searchStack st cs := by
  induction st with
  | nil => rfl
  | cons x st ih =>
    obtain ⟨f, a⟩ := x
    cases f with
    | nil => exact ih
    | cons nops name props children endNops rest => rfl

theorem map_dropWhile (st : List (Forest × Nat)) :
    (st.dropWhile fun x => x.1.isNil).map Prod.fst = (st.map Prod.fst).dropWhile Forest.isNil := by
  induction st with
  | nil => rfl
  | cons x st ih =>
    simp only [List.dropWhile_cons, List.map_cons]
    split
    · exact ih
    · rfl

def stackWords : List (Forest × Nat) → Nat
  | [] => 0
  | x :: st => wordsOf x.1.tokens + stackWords st

theorem stackWords_dropWhile (st : List (Forest × Nat)) :
    stackWords (st.dropWhile fun x => x.1.isNil) ≤ stackWords st := by
  induction st with
  | nil => exact le_rfl
  | cons x st ih =>
    rw [List.dropWhile_cons]
    split
    · simp only [stackWords]
      omega
    · exact le_rfl

/-- **What the scan finds, there is, or it has gone astray.** The measure is the number
    of words of all forests of the stack, since a node without children hands the rest of
    the path to a forest of the stack, which is no part of the forest it is in. -/
theorem search_isSome {k : Nat} : ∀ {f : Forest} {a : Nat} {st : List (Forest × Nat)} {cs : Path},
    wordsOf f.tokens + stackWords st ≤ k → f.isNil = false →
    cs ≠ [] → (search f a (searchStack st) cs).isSome = true →
    f.finds cs = true ∨ Strays f (st.map Prod.fst) cs := by
  induction k with
  | zero =>
    intro f a st cs hk hf _ _
    cases f with
    | nil => exact absurd hf (by simp [Forest.isNil])
    | cons nops name props children endNops rest =>
      have := (Token.beginNode name).words_pos
      rw [Forest.tokens_cons] at hk
      simp only [Node.tokens, wordsOf_append, wordsOf_cons] at hk
      omega
  | succ k ih =>
    intro f a st cs hk hf hcs h
    cases f with
    | nil => exact absurd hf (by simp [Forest.isNil])
    | cons nops name props children endNops rest =>
      obtain ⟨c, cs, rfl⟩ := List.exists_cons_of_ne_nil hcs
      have hpos := (Token.beginNode name).words_pos
      have hwords : wordsOf (Forest.cons nops name props children endNops rest).tokens =
          nops + ((Token.beginNode name).words + (wordsOf (propTokens props) +
            (wordsOf children.tokens + (endNops + 1)))) + wordsOf rest.tokens := by
        rw [Forest.tokens_cons]
        simp [Node.tokens, Token.words]
        omega
      rw [hwords] at hk
      set b := a + 4 * nops with hb
      set b' := b + 4 * wordsOf (Node.tokens ⟨name, props, children, endNops⟩) with hb'
      simp only [search, Forest.finds] at h ⊢
      by_cases hm : matchesName c name = true
      · rw [if_pos hm] at h ⊢
        by_cases hlast : cs = []
        · left
          simp [hlast]
        · rw [if_neg hlast] at h
          have hstack : (fun cs => search rest b' (searchStack st) cs) =
              searchStack ((rest, b') :: st) := rfl
          rw [hstack] at h
          cases hch : children.isNil with
          | false =>
            have hrec := @ih _ _ ((rest, b') :: st) _ (by simp only [stackWords]; omega) hch hlast h
            rcases hrec with hfound | hstray
            · left
              simp [hfound]
            · exact Or.inr (.child hm hstray)
          | true =>
            right
            cases children with
            | cons _ _ _ _ _ _ => exact absurd hch (by simp [Forest.isNil])
            | nil =>
              -- the scan leaves the node and goes on behind it
              have hgo : (searchStack ((rest, b') :: st) cs).isSome = true := h
              rw [← searchStack_dropWhile] at hgo
              cases hdw : ((rest, b') :: st).dropWhile fun x => x.1.isNil with
              | nil =>
                rw [hdw] at hgo
                exact absurd hgo (by simp [searchStack])
              | cons x gs =>
                obtain ⟨g, e⟩ := x
                have hg : ((rest :: st.map Prod.fst).dropWhile Forest.isNil) =
                    g :: gs.map Prod.fst := by
                  have := map_dropWhile ((rest, b') :: st)
                  rw [hdw] at this
                  exact this.symm
                have hgn : g.isNil = false := by
                  have hhd := List.head_dropWhile_not (fun x : Forest × Nat => x.1.isNil)
                    (l := (rest, b') :: st) (by rw [hdw]; simp)
                  simpa [hdw] using hhd
                have hsub := stackWords_dropWhile ((rest, b') :: st)
                rw [hdw] at hsub
                simp only [stackWords] at hsub
                rw [hdw] at hgo
                rcases @ih _ e gs _ (by omega) hgn hlast hgo with hfound | hstray
                · exact .leaf hm hlast hg hfound
                · exact .again hm hlast hg hstray
      · rw [if_neg hm] at h ⊢
        cases hr : rest with
        | nil =>
          rw [hr] at h
          exact absurd h (by simp)
        | cons nops' name' props' children' endNops' rest' =>
          rw [hr] at h
          dsimp only at h
          rw [← hr] at h ⊢
          rcases ih (f := rest) (by omega) (by rw [hr]; rfl) (by simp) h with hfound | hstray
          · exact Or.inl hfound
          · exact Or.inr (.next hm hstray)

theorem Strays.search_isSome (h : Strays f after cs) :
    ∀ {a : Nat} {st : List (Forest × Nat)}, st.map Prod.fst = after →
    (search f a (searchStack st) cs).isSome = true := by
  -- what follows a node without children is the first forest of the stack with a node in it
  have hstack : ∀ {rest g : Forest} {after gs : List Forest} {b : Nat} {st : List (Forest × Nat)}
      {cs : Path}, (rest :: after).dropWhile Forest.isNil = g :: gs → st.map Prod.fst = after →
      (∀ {e : Nat} {st' : List (Forest × Nat)}, st'.map Prod.fst = gs →
        (search g e (searchStack st') cs).isSome = true) →
      (search rest b (searchStack st) cs).isSome = true := by
    intro rest g after gs b st cs hg hst hfound
    have hmap := map_dropWhile ((rest, b) :: st)
    rw [List.map_cons, hst, hg] at hmap
    cases hdw : ((rest, b) :: st).dropWhile fun x => x.1.isNil with
    | nil => rw [hdw] at hmap; exact absurd hmap (by simp)
    | cons x st' =>
      obtain ⟨g', e⟩ := x
      rw [hdw] at hmap
      simp only [List.map_cons, List.cons.injEq] at hmap
      obtain ⟨rfl, hst'⟩ := hmap
      have : searchStack ((rest, b) :: st) cs = searchStack ((g', e) :: st') cs := by
        rw [← searchStack_dropWhile, hdw]
      rw [show search rest b (searchStack st) cs = searchStack ((rest, b) :: st) cs from rfl, this]
      exact hfound hst'
  induction h with
  | leaf hm hcs hg h =>
    intro a st hst
    simp only [search]
    rw [if_pos hm, if_neg hcs]
    refine hstack hg hst fun {e st'} _ => ?_
    rw [search_of_finds h, lookup_isSome, h]
  | again hm hcs hg _ ih =>
    intro a st hst
    simp only [search]
    rw [if_pos hm, if_neg hcs]
    exact hstack hg hst ih
  | child hm h ih =>
    intro a st hst
    rename_i nops endNops name c props children rest after cs
    simp only [search]
    rw [if_pos hm, if_neg h.ne_nil]
    exact @ih _ ((rest, _) :: st) (by simp [hst])
  | next hm h ih =>
    intro a st hst
    rename_i nops endNops name c props children rest after cs
    simp only [search]
    rw [if_neg hm]
    cases hr : rest with
    | nil => rw [hr] at h; cases h
    | cons nops' name' props' children' endNops' rest' =>
      rw [hr] at ih
      exact ih hst

/-! ## The statement -/

section Statement

variable {m p : Bytes} {fuel a devicetree path : Nat} {t : Tree} {comps : Path}

/-- **`dtb_find` is right about a path**: what it returns is the node the path means, and
    if there is such a node it returns it. -/
def FindRight (m : Bytes) (fuel devicetree : Nat) (p : Bytes) (path : Nat) (t : Tree) (a : Nat)
    (comps : Path) : Prop :=
  (∀ b, dtbFind m fuel devicetree p path = some (some b) → t.Resolves a comps b) ∧
    ∀ b, t.Resolves a comps b → dtbFind m fuel devicetree p path = some (some b)

/-- **`dtb_find` returns, and is right about a path if and only if its scan does not go
    astray on it.** For every well-formed structure block in memory, with siblings that
    differ before the `@`, and every absolute path it has room for. -/
theorem dtbFind_right_iff (hb : Block m a t) (hdt : structBlock m devicetree = a)
    (hd : t.children.Distinct) (hok : PathOk comps) (hpath : Holds p path (pathBytes comps ++ [0]))
    (hf : (encode t.tokens).length ≤ fuel) (hf' : (pathBytes comps).length < fuel) :
    (dtbFind m fuel devicetree p path).isSome = true ∧
      (FindRight m fuel devicetree p path t a comps ↔ ¬ Strays t.children [] comps) := by
  have hfind := dtbFind_spec hb hdt hok hpath hf hf'
  refine ⟨by rw [hfind]; rfl, ?_⟩
  unfold FindRight
  rw [hfind]
  cases comps with
  | nil =>
    have hno : ¬ Strays t.children [] [] := fun h => h.ne_nil rfl
    refine ⟨fun _ => hno, fun _ => ⟨fun b h => ?_, fun b h => ?_⟩⟩
    · simp only [Tree.search, Option.some.injEq] at h
      exact h.symm
    · simp only [Tree.Resolves] at h
      rw [h]
      rfl
  | cons c cs =>
    have hres : ∀ b, t.Resolves a (c :: cs) b ↔
        lookup t.children (t.root.inner a) (c :: cs) = some b := by
      intro b
      constructor
      · rintro ⟨n, hn⟩
        exact lookup_complete hd hn
      · intro h
        exact lookup_sound h
    have hs : t.search a (c :: cs) =
        search t.children (t.root.inner a) (searchStack []) (c :: cs) := rfl
    simp only [hres, Option.some.injEq]
    constructor
    · rintro ⟨hsound, -⟩ hstray
      obtain ⟨b, hb⟩ := Option.isSome_iff_exists.mp (@Strays.search_isSome _ _ _ hstray
        (t.root.inner a) [] rfl)
      have := hsound b (hs.trans hb)
      have hsome : (lookup t.children (t.root.inner a) (c :: cs)).isSome = true := by rw [this]; rfl
      rw [lookup_isSome, hstray.not_finds] at hsome
      cases hsome
    · intro hno
      cases hfd : t.children.finds (c :: cs) with
      | true =>
        rw [hs, search_of_finds hfd]
        exact ⟨fun b h => h, fun b h => h⟩
      | false =>
        have hnone : lookup t.children (t.root.inner a) (c :: cs) = none := by
          rw [← Option.not_isSome_iff_eq_none, lookup_isSome, hfd]
          simp
        have hsn : t.search a (c :: cs) = none := by
          rw [← Option.not_isSome_iff_eq_none, hs]
          intro hsome
          cases hn : t.children.isNil with
          | true =>
            cases hch : t.children with
            | nil => rw [hch] at hsome; simp [search, searchStack] at hsome
            | cons _ _ _ _ _ _ => rw [hch] at hn; simp [Forest.isNil] at hn
          | false =>
            rcases @Dtb.search_isSome _ _ _ [] _ le_rfl hn (by simp) hsome with h | h
            · rw [hfd] at h
              cases h
            · exact hno h
        rw [hnone, hsn]
        exact ⟨fun b h => h, fun b h => h⟩

/-- Two nodes on two levels; the second has a property, a token to skip and an address in its name. -/
def busTree : Tree where
  props := []
  children := .cons 0 (chars ['a']) [] .nil 0 (.cons 1 (chars ['b', '@', '0']) [⟨0, 0, [1, 2]⟩]
    (.cons 0 (chars ['a']) [] .nil 0 (.cons 0 (chars ['c', '@', '1']) [] .nil 0 .nil)) 0 .nil)
  endNops := 0
  tailNops := 0

def busMemory : Bytes := memoryAt 64 (blob busTree [])

theorem dtbFind_right_bus :
    dtbFind busMemory 200 64 (cstr (chars ['/', 'b', '/', 'c'])) 0 = some (some 164) ∧
      busTree.Resolves 104 [chars ['b'], chars ['c']] 164 := by
  have hfind : dtbFind busMemory 200 64 (cstr (chars ['/', 'b', '/', 'c'])) 0 = some (some 164) := by
    decide +kernel
  have hblock : Block busMemory 104 busTree :=
    block_blob (by decide) (by decide) (by decide +kernel)
  have hno : ¬ Strays busTree.children [] [chars ['b'], chars ['c']] := fun h =>
    absurd h.not_finds (by decide)
  have hright := (@dtbFind_right_iff busMemory (cstr (chars ['/', 'b', '/', 'c'])) 200 104 64 0 busTree
    [chars ['b'], chars ['c']] hblock (by decide) (by decide) ⟨by decide, by decide, by decide, by decide +kernel⟩
    ⟨rfl, rfl, rfl, rfl, rfl, trivial⟩ (by decide) (by decide)).2.mpr hno
  exact ⟨hfind, hright.1 164 hfind⟩

def strayTree : Tree where
  props := []
  children := .cons 0 (chars ['a']) [] .nil 0 (.cons 0 (chars ['b']) [] .nil 0 .nil)
  endNops := 0
  tailNops := 0

def strayMemory : Bytes := memoryAt 64 (blob strayTree [])

/-- **The path `/a/b` finds the sibling `b` of `a`**, though nothing is below `a`. -/
theorem dtbFind_strays :
    dtbFind strayMemory 200 64 (cstr (chars ['/', 'a', '/', 'b'])) 0 = some (some 124) ∧
      ¬ FindRight strayMemory 200 64 (cstr (chars ['/', 'a', '/', 'b'])) 0 strayTree 104
        [chars ['a'], chars ['b']] := by
  have hfind : dtbFind strayMemory 200 64 (cstr (chars ['/', 'a', '/', 'b'])) 0 = some (some 124) := by
    decide +kernel
  refine ⟨hfind, fun h => ?_⟩
  obtain ⟨n, hl⟩ := h.1 124 hfind
  cases hl with
  | step hx hm h =>
    have hleaf : ∀ y ∈ strayTree.root.childrenAt 104, y.2.childrenAt y.1 = [] := by
      intro y hy
      simp only [Node.childrenAt, Tree.root, strayTree, Forest.nodes, List.mem_cons,
        List.not_mem_nil, or_false] at hy
      rcases hy with rfl | rfl <;> rfl
    rw [hleaf _ hx] at h
    cases h with
    | last hx _ => exact absurd hx (by simp)
    | step hx _ _ => exact absurd hx (by simp)

end Statement

end ZeptOS.Dtb
