import Mathlib.Data.List.TakeWhile
import ZeptOS.Dtb.Walk

/-!
# Looking up a path

`dtb_find` is one scan over the tokens with a counter of how much of the path has been
matched. The counter goes up when the scan enters a matching node and never comes down:
`DTB_END_NODE` is ignored. As long as the node it has entered has children this does no
harm, because the search among siblings ends at the last of them. A matching node
without children is left without anything noticing, and the scan goes on to compare the
next component with whatever node comes behind it.

`search` says on trees what the scan finds (`dtbFind_spec`), `lookup` what it should
find, and `Strays` is the difference.
-/

namespace ZeptOS.Dtb

open Lib

/-! ## Paths and names -/

abbrev Path := List (List UInt8)

def pathBytes : Path → List UInt8
  | [] => [SLASH]
  | cs => cs.flatMap fun c => SLASH :: c

structure PathOk (cs : Path) : Prop where
  depth : cs.length ≤ 10
  nonempty : ∀ c ∈ cs, c ≠ []
  short : ∀ c ∈ cs, c.length < 256
  clean : ∀ c ∈ cs, ∀ x ∈ c, x ≠ 0 ∧ x ≠ SLASH

/-- Does a component name a node: are they equal, or is the name the component and a unit
    address? -/
def matchesName (c name : List UInt8) : Bool := name == c || (c ++ [AT]).isPrefixOf name

theorem matchesName_iff {c name : List UInt8} :
    matchesName c name = true ↔ name = c ∨ ∃ unit, name = c ++ AT :: unit := by
  simp only [matchesName, Bool.or_eq_true, beq_iff_eq, List.isPrefixOf_iff_prefix]
  constructor
  · rintro (h | ⟨u, h⟩)
    · exact Or.inl h
    · exact Or.inr ⟨u, by rw [← h]; simp⟩
  · rintro (h | ⟨u, h⟩)
    · exact Or.inl h
    · exact Or.inr ⟨u, by rw [h]; simp⟩

theorem matchesName_cons {x y : UInt8} {c name : List UInt8} :
    matchesName (x :: c) (y :: name) = (x == y && matchesName c name) := by
  by_cases h : x = y
  · subst h
    simp [matchesName]
  · have h1 : (x == y) = false := beq_false_of_ne h
    have h2 : (y == x) = false := beq_false_of_ne fun he => h he.symm
    simp [matchesName, List.isPrefixOf, h1, h2]

/-- **`strcmp_nodename` compares a component with a name.** -/
theorem strcmpNodename_spec {p m : Bytes} {name : List UInt8} : ∀ {c : List UInt8} {i j fuel : Nat},
    Holds p i (c ++ [0]) → Holds m j (name ++ [0]) → (∀ x ∈ c, x ≠ 0) → (∀ x ∈ name, x ≠ 0) →
    name.length < fuel →
    strcmpNodename fuel p i m j = some (if matchesName c name then 0 else 1) := by
  induction name with
  | nil =>
    intro c i j fuel hp hm hc _ hf
    have hmj : m j = 0 := hm.1
    have hstop : loop (cmpRound p m) fuel (i, j) = some (i, j) := by
      refine (Rounds.refl _).answer ?_ (by simpa using hf)
      simp [cmpRound, hmj]
    unfold strcmpNodename
    simp only [hstop, Option.bind_eq_bind, Option.bind_some, hmj]
    cases c with
    | nil =>
      have hpi : p i = 0 := hp.1
      simp [hpi, matchesName]
    | cons x c =>
      have hpi : p i = x := hp.1
      have hx : x ≠ 0 := hc x List.mem_cons_self
      simp [hpi, hx, matchesName]
  | cons y name ih =>
    intro c i j fuel hp hm hc hn hf
    have hmj : m j = y := hm.1
    have hy : y ≠ 0 := hn y List.mem_cons_self
    cases c with
    | nil =>
      have hpi : p i = 0 := hp.1
      have hstop : loop (cmpRound p m) fuel (i, j) = some (i, j) := by
        refine (Rounds.refl _).answer ?_ (by omega)
        simp [cmpRound, hpi]
      unfold strcmpNodename
      simp only [hstop, Option.bind_eq_bind, Option.bind_some, hmj, hpi]
      by_cases hat : y = AT
      · subst hat
        simp [matchesName, List.isPrefixOf]
      · have hat' : ¬ AT = y := fun h => hat h.symm
        simp [hy, hat, hat', matchesName, List.isPrefixOf]
    | cons x c =>
      have hpi : p i = x := hp.1
      have hx : x ≠ 0 := hc x List.mem_cons_self
      rw [matchesName_cons]
      by_cases hxy : x = y
      · subst hxy
        obtain ⟨fuel, rfl⟩ : ∃ k, fuel = k + 1 := ⟨fuel - 1, by omega⟩
        have hstep : loop (cmpRound p m) (fuel + 1) (i, j) = loop (cmpRound p m) fuel (i + 1, j + 1) := by
          simp [loop, cmpRound, hpi, hmj, hx]
        have := ih hp.2 hm.2 (fun z hz => hc z (List.mem_cons_of_mem _ hz))
          (fun z hz => hn z (List.mem_cons_of_mem _ hz)) (by simpa using hf)
        unfold strcmpNodename at this ⊢
        rw [hstep, this]
        simp
      · have hstop : loop (cmpRound p m) fuel (i, j) = some (i, j) := by
          refine (Rounds.refl _).answer ?_ (by omega)
          simp [cmpRound, hpi, hmj, hx, hy, hxy]
        unfold strcmpNodename
        simp [hstop, hpi, hx, hxy]

/-! ## Splitting the path -/

section Split

variable {p : Bytes} {path : Nat}

/-- `parsed_path` with components written from row `d` on. -/
def rows (parsed : Bytes) : Nat → Path → Bytes
  | _, [] => parsed
  | d, c :: cs => rows (parsed.blit (256 * d) c) (d + 1) cs

theorem update_blit {b : Bytes} {o k : Nat} {c : List UInt8} (hk : k < c.length) :
    Function.update (b.blit o (c.take k)) (o + k) (c.get ⟨k, hk⟩) = b.blit o (c.take (k + 1)) := by
  funext x
  by_cases hx : x = o + k
  · subst hx
    simp [Bytes.blit, hk]
  · rw [Function.update_of_ne hx]
    simp only [Bytes.blit]
    split
    · rename_i hle
      by_cases hlt : x - o < k
      · rw [List.getElem?_take_of_lt hlt, List.getElem?_take_of_lt (by omega)]
      · rw [List.getElem?_take_eq_none (by omega), List.getElem?_take_eq_none (by omega)]
    · rfl

theorem split_component {c : List UInt8} {i d : Nat} {parsed : Bytes} (h : Holds p (path + i) c)
    (hc : ∀ x ∈ c, x ≠ 0 ∧ x ≠ SLASH) (hd : 256 * d + c.length ≤ 10 * 256) :
    Rounds (splitRound p path) c.length ⟨i, parsed, d, 0⟩
      ⟨i + c.length, parsed.blit (256 * d) c, d, c.length⟩ := by
  have hstart : parsed.blit (256 * d) (c.take 0) = parsed := by
    funext x
    simp [Bytes.blit]
  have hend : parsed.blit (256 * d) (c.take c.length) = parsed.blit (256 * d) c := by
    rw [List.take_length]
  have := @Rounds.of_forall _ _ (splitRound p path)
    (fun k => ⟨i + k, parsed.blit (256 * d) (c.take k), d, k⟩) c.length fun k hk => by
      have hget : p (path + (i + k)) = c.get ⟨k, hk⟩ := by
        rw [← Nat.add_assoc]
        exact h.get hk
      have hck := hc (c.get ⟨k, hk⟩) (List.getElem_mem hk)
      simp only [splitRound]
      rw [if_neg (hget ▸ hck.1), if_neg (hget ▸ hck.2), if_pos (by omega), hget, update_blit hk]
      rfl
  simpa only [hstart, hend, Nat.add_zero] using this

theorem split_rest {cs : Path} : ∀ {c : List UInt8} {i d : Nat} {parsed : Bytes},
    Holds p (path + i) (c ++ (cs.flatMap fun c => SLASH :: c) ++ [0]) →
    (∀ e ∈ c :: cs, ∀ x ∈ e, x ≠ 0 ∧ x ≠ SLASH) → (∀ e ∈ c :: cs, e.length < 256) →
    d + cs.length < 10 →
    ∃ s, Answers (splitRound p path) (c ++ cs.flatMap fun c => SLASH :: c).length
      ⟨i, parsed, d, 0⟩ s ∧ s.depth = d + cs.length ∧ s.parsed = rows parsed d (c :: cs) := by
  induction cs with
  | nil =>
    intro c i d parsed h hc hs hd
    simp only [List.flatMap_nil, List.append_nil] at h ⊢
    have hl := hs c List.mem_cons_self
    have hrow := @split_component _ _ _ _ d parsed (holds_append.mp h).1
      (hc c List.mem_cons_self) (by simp at hd; omega)
    have hz : p (path + (i + c.length)) = 0 := by
      rw [← Nat.add_assoc]
      exact (holds_append.mp h).2.1
    have hstop : splitRound p path ⟨i + c.length, parsed.blit (256 * d) c, d, c.length⟩ =
        some (.inr ⟨i + c.length, parsed.blit (256 * d) c, d, c.length⟩) := by
      simp [splitRound, hz]
    exact ⟨_, ⟨_, hrow.within le_rfl, hstop⟩, rfl, rfl⟩
  | cons e cs ih =>
    intro c i d parsed h hc hs hd
    have hl := hs c List.mem_cons_self
    have hcons : c ++ ((e :: cs).flatMap fun c => SLASH :: c) ++ [0] =
        c ++ (SLASH :: (e ++ (cs.flatMap fun c => SLASH :: c) ++ [0])) := by simp
    rw [hcons] at h
    have hrow := @split_component _ _ _ _ d parsed (holds_append.mp h).1
      (hc c List.mem_cons_self) (by simp at hd; omega)
    have hsl : p (path + (i + c.length)) = SLASH := by
      rw [← Nat.add_assoc]
      exact (holds_append.mp h).2.1
    have hstep : splitRound p path ⟨i + c.length, parsed.blit (256 * d) c, d, c.length⟩ =
        some (.inl ⟨i + c.length + 1, parsed.blit (256 * d) c, d + 1, 0⟩) := by
      simp only [splitRound]
      rw [if_neg (by rw [hsl]; decide), if_pos hsl]
    have hnext : Holds p (path + (i + c.length + 1)) (e ++ (cs.flatMap fun c => SLASH :: c) ++ [0]) := by
      have := (holds_append.mp h).2.2
      rwa [show path + i + c.length + 1 = path + (i + c.length + 1) by omega] at this
    obtain ⟨s, hans, hdep, hpar⟩ := @ih _ _ (d + 1) (parsed.blit (256 * d) c) hnext
      (fun x hx => hc x (List.mem_cons_of_mem _ hx)) (fun x hx => hs x (List.mem_cons_of_mem _ hx))
      (by simp at hd; omega)
    refine ⟨s, ?_, ?_, hpar⟩
    · refine (hans.after ((hrow.trans (.one hstep)).within le_rfl)).mono ?_
      simp
      omega
    · rw [hdep]
      simp
      omega

theorem rows_below {cs : Path} : ∀ {parsed : Bytes} {d x : Nat}, x < 256 * d →
    rows parsed d cs x = parsed x := by
  induction cs with
  | nil => intro parsed d x _; rfl
  | cons c cs ih =>
    intro parsed d x hx
    rw [rows, ih (by omega)]
    simp only [Bytes.blit]
    rw [if_neg (by omega)]

theorem rows_holds {cs : Path} : ∀ {parsed : Bytes} {d k : Nat} {c : List UInt8},
    (∀ x, 256 * d ≤ x → parsed x = 0) → (∀ e ∈ cs, e.length < 256) → cs[k]? = some c →
    Holds (rows parsed d cs) (256 * (d + k)) (c ++ [0]) := by
  induction cs with
  | nil => intro parsed d k c _ _ h; simp at h
  | cons e cs ih =>
    intro parsed d k c hz hs h
    cases k with
    | zero =>
      simp only [List.getElem?_cons_zero, Option.some.injEq] at h
      subst h
      have hl := hs e List.mem_cons_self
      refine holds_of_get fun j hj => ?_
      simp only [List.length_append, List.length_singleton] at hj
      rw [Nat.add_zero, rows, rows_below (by omega)]
      simp only [Bytes.blit]
      rw [if_pos (by omega), Nat.add_sub_cancel_left]
      by_cases hje : j < e.length
      · simp [hje]
      · have : j = e.length := by omega
        subst this
        simp [hz]
    | succ k =>
      have := @ih (parsed.blit (256 * d) e) (d + 1) k c (fun x hx => by
        have hl := hs e List.mem_cons_self
        simp only [Bytes.blit]
        rw [if_pos (by omega), List.getElem?_eq_none (by omega)]
        exact hz x (by omega)) (fun x hx => hs x (List.mem_cons_of_mem _ hx)) (by simpa using h)
      rw [show d + (k + 1) = d + 1 + k by omega]
      exact this

end Split

/-! ## What the scan finds -/

/-- What the scan of `dtb_find` finds in a forest at `a`, with the path that is left, when
    `up` is what it finds behind the forest. -/
def search : Forest → Nat → (Path → Option Nat) → Path → Option Nat
  | .nil, _, up, cs => up cs
  | .cons _ _ _ _ _ _, _, _, [] => none
  | .cons nops name props children endNops rest, a, up, c :: cs =>
    let n : Node := ⟨name, props, children, endNops⟩
    let b := a + 4 * nops
    if matchesName c name then
      if cs = [] then some b
      else search children (n.inner b) (fun cs => search rest (b + 4 * wordsOf n.tokens) up cs) cs
    else
      match rest with
      | .nil => none
      | .cons _ _ _ _ _ _ => search rest (b + 4 * wordsOf n.tokens) up (c :: cs)

section Scan

variable {m parsed : Bytes} {fuel a d : Nat} {comps cs : Path} {us : List Token}

def Parsed (parsed : Bytes) (comps : Path) : Prop :=
  ∀ k c, comps[k]? = some c → Holds parsed (256 * k) (c ++ [0])

abbrev scan (m parsed : Bytes) (comps : Path) (fuel : Nat) := findRound m parsed (comps.length - 1) fuel

theorem scan_inert (h : Inert (word m a)) :
    scan m parsed comps fuel (a, d) = some (.inl (a + 4, d)) := by
  obtain ⟨n1, n2, n3, n4, n5⟩ := h.ne
  simp only [scan, findRound]
  rw [if_neg n5, if_neg n1, if_neg n3]

theorem scan_skip {t : Token} (ht : t = .nop ∨ t = .endNode) (h : Stream m a (t :: us)) :
    scan m parsed comps fuel (a, d) = some (.inl (a + 4, d)) := by
  simp only [scan, findRound]
  rw [h.head]
  rcases ht with rfl | rfl <;> rfl

theorem scan_prop {o : Nat} {v : List UInt8} (h : Stream m a (.prop o v :: us)) :
    Within (scan m parsed comps fuel) (Token.prop o v).words (a, d)
      (a + 4 * (Token.prop o v).words, d) := by
  have hstep : scan m parsed comps fuel (a, d) = some (.inl (a + 12 + 4 * (v.length / 4), d)) := by
    simp only [scan, findRound]
    rw [h.head, h.prop_length]
    show some (Sum.inl (_ + 4, d)) = _
    congr 3
    omega
  simp only [Token.words]
  by_cases hl : v.length % 4 = 0
  · refine ⟨1, by omega, ?_⟩
    rw [show a + 4 * ((v.length + 3) / 4 + 3) = a + 12 + 4 * (v.length / 4) by omega]
    exact .one hstep
  · refine ⟨2, by omega, .step hstep (.one ?_)⟩
    rw [scan_inert (h.prop_inert hl)]
    congr 3
    omega

theorem scan_tokens {ts : List Token} (hts : ∀ t ∈ ts, t.Plain) (h : Stream m a (ts ++ us)) :
    Within (scan m parsed comps fuel) (wordsOf ts) (a, d) (a + 4 * wordsOf ts, d) := by
  refine within_tokens (fun b => (b, d)) (fun t ht b us hs => ?_) h
  cases t with
  | nop => exact (Rounds.one (scan_skip (.inl rfl) hs)).within le_rfl
  | prop o v => exact scan_prop hs
  | _ => exact (hts _ ht).elim

theorem scan_nops {k : Nat} (h : Stream m a (nopTokens k ++ us)) :
    Within (scan m parsed comps fuel) k (a, d) (a + 4 * k, d) := by
  have r := @scan_tokens _ parsed fuel _ d comps _ _ (plain_nopTokens k) h
  rwa [wordsOf_nopTokens] at r

theorem scan_name {name : List UInt8} (h : Stream m a (.beginNode name :: us)) {i : Nat}
    (hi : i ≤ name.length / 4 + 1) :
    Rounds (scan m parsed comps fuel) (name.length / 4 + 1 - i) (a + 4 + 4 * i, d)
      (a + 4 * (Token.beginNode name).words, d) := by
  have := @Rounds.of_forall _ _ (scan m parsed comps fuel)
    (fun k => (a + 4 + 4 * (i + k), d)) (name.length / 4 + 1 - i) fun k hk => by
      rw [scan_inert (h.name_inert (i := i + k) (by omega))]
      rfl
  simp only [Nat.add_zero] at this
  rwa [show a + 4 * (Token.beginNode name).words =
    a + 4 + 4 * (i + (name.length / 4 + 1 - i)) by simp only [Token.words]; omega]

theorem scan_begin {name : List UInt8} {c : List UInt8} (h : Stream m a (.beginNode name :: us))
    (hp : Parsed parsed comps) (hc : comps[d]? = some c) (hz : ∀ x ∈ c, x ≠ 0)
    (hf : 4 * (Token.beginNode name).words ≤ fuel) : scan m parsed comps fuel (a, d) =
      if matchesName c name then
        if d = comps.length - 1 then some (.inr (some a)) else some (.inl (a + 4 + 4, d + 1))
      else
        (dtbNextSibling m fuel a).map fun r => match r with
          | none => .inr none
          | some sibling => .inl (sibling, d) := by
  have hcmp := @strcmpNodename_spec _ _ _ _ _ _ fuel (hp d c hc) h.nameString hz
    (h.wf (.beginNode name) List.mem_cons_self) (by simp only [Token.words] at hf; omega)
  simp only [scan, findRound]
  rw [show word m a = DTB_BEGIN_NODE from h.head, if_neg (by decide), if_pos rfl, hcmp]
  by_cases hm : matchesName c name = true
  · simp only [hm, if_true, Option.bind_eq_bind, Option.bind_some]
    split <;> rfl
  · simp only [hm, Option.bind_eq_bind, Option.bind_some]
    cases dtbNextSibling m fuel a with
    | none => rfl
    | some r => cases r <;> rfl

theorem scan_tail {k : Nat} (h : Stream m a (nopTokens k ++ [.fin])) :
    Answers (scan m parsed comps fuel) k (a, d) none := by
  have hfin := h.right.head
  simp only [wordsOf_nopTokens, Token.head] at hfin
  have hstop : scan m parsed comps fuel (a + 4 * k, d) = some (.inr none) := by
    simp only [scan, findRound]
    rw [if_pos hfin]
  exact ⟨_, scan_nops h, hstop⟩

/-- **The scan of a forest finds what `search` says.** The induction is on the forest: a
    node that is entered is scanned with what stands behind it as the continuation, and
    `DTB_END_NODE`, which the scan ignores, leads into the continuation. -/
theorem scan_forest {f : Forest} (hp : Parsed parsed comps)
    (hclean : ∀ c ∈ comps, ∀ x ∈ c, x ≠ 0) : ∀ {a e d : Nat} {us : List Token} {cs : Path}
    {up : Path → Option Nat}, comps.drop d = cs → cs ≠ [] →
    Stream m a (f.tokens ++ (nopTokens e ++ .endNode :: us)) →
    4 * wordsOf (f.tokens ++ (nopTokens e ++ .endNode :: us)) ≤ fuel →
    (∀ d' cs', comps.drop d' = cs' → cs' ≠ [] → Answers (scan m parsed comps fuel) (wordsOf us)
      (a + 4 * wordsOf f.tokens + 4 * e + 4, d') (up cs')) →
    Answers (scan m parsed comps fuel) (wordsOf (f.tokens ++ (nopTokens e ++ .endNode :: us)))
      (a, d) (search f a up cs) := by
  induction f with
  | nil =>
    intro a e d us cs up hd hcs h hf hup
    have hs : Stream m a (nopTokens e ++ .endNode :: us) := h
    have h1 := hs.right
    rw [wordsOf_nopTokens] at h1
    have r := (@scan_nops _ parsed fuel _ d comps _ _ hs).trans
      ((Rounds.one (scan_skip (.inr rfl) h1)).within le_rfl)
    refine ((hup d cs hd hcs).after r).mono ?_
    simp [Token.words, Forest.tokens]
    omega
  | cons nops name props children endNops rest ihc ihr =>
    intro a e d us cs up hd hcs h hf hup
    obtain ⟨c, cs, rfl⟩ := List.exists_cons_of_ne_nil hcs
    have hc : comps[d]? = some c := by
      rw [← List.head?_drop, hd]
      rfl
    have hlen : comps.length - d = cs.length + 1 := by
      rw [← List.length_drop, hd, List.length_cons]
    set n : Node := ⟨name, props, children, endNops⟩ with hn
    have hts : (Forest.cons nops name props children endNops rest).tokens ++
        (nopTokens e ++ .endNode :: us) =
        nopTokens nops ++ (n.tokens ++ (rest.tokens ++ (nopTokens e ++ .endNode :: us))) := by
      rw [Forest.tokens_cons]
      simp [hn]
    have hwords : wordsOf (Forest.cons nops name props children endNops rest).tokens =
        nops + wordsOf n.tokens + wordsOf rest.tokens := by
      rw [Forest.tokens_cons]
      simp [hn, Nat.add_assoc]
    rw [hts] at h hf ⊢
    rw [hwords] at hup
    have hnode := h.right
    rw [wordsOf_nopTokens] at hnode
    rw [wordsOf_append, wordsOf_nopTokens] at hf ⊢
    have hrest : ∀ d' cs', comps.drop d' = cs' → cs' ≠ [] →
        Answers (scan m parsed comps fuel) (wordsOf (rest.tokens ++ (nopTokens e ++ .endNode :: us)))
          (a + 4 * nops + 4 * wordsOf n.tokens, d')
          (search rest (a + 4 * nops + 4 * wordsOf n.tokens) up cs') := by
      intro d' cs' hd' hcs'
      refine ihr hd' hcs' hnode.right (by rw [wordsOf_append] at hf; omega) fun d'' cs'' h1 h2 => ?_
      have := hup d'' cs'' h1 h2
      rwa [show a + 4 * nops + 4 * wordsOf n.tokens + 4 * wordsOf rest.tokens + 4 * e + 4 =
        a + 4 * (nops + wordsOf n.tokens + wordsOf rest.tokens) + 4 * e + 4 by omega]
    refine Answers.after ?_ (scan_nops h)
    have hnw : (Token.beginNode name).words ≤ wordsOf n.tokens := by
      simp only [hn, Node.tokens, wordsOf_cons]
      omega
    rw [wordsOf_append] at hf ⊢
    have hhead : Stream m (a + 4 * nops) (.beginNode name :: (propTokens props ++ (children.tokens ++
        (nopTokens endNops ++ .endNode :: (rest.tokens ++ (nopTokens e ++ .endNode :: us)))))) :=
      n.tokens_append _ ▸ hnode
    have hbegin := @scan_begin _ _ fuel _ d _ _ _ _ hhead hp hc
      (hclean c (List.mem_of_getElem? hc)) (by omega)
    simp only [search]
    by_cases hm : matchesName c name = true
    · rw [if_pos hm] at hbegin ⊢
      by_cases hlast : cs = []
      · subst hlast
        rw [if_pos rfl]
        rw [if_pos (by simp at hlen; omega)] at hbegin
        exact .now hbegin
      · rw [if_neg hlast]
        have hpos : 0 < cs.length := List.length_pos_iff.mpr hlast
        rw [if_neg (by omega)] at hbegin
        have hdrop : comps.drop (d + 1) = cs := by
          rw [← List.drop_drop, hd]
          rfl
        -- enter the node: its name, its properties, and then its children
        have r1 := (Rounds.step hbegin (@scan_name _ parsed fuel _ (d + 1) comps _ _ hhead 1
          (by omega))).within (w := (Token.beginNode name).words)
          (by simp only [Token.words]; omega)
        have r2 := @scan_tokens _ parsed fuel _ (d + 1) comps _ _ (plain_propTokens _) hhead.tail
        have hin := @ihc _ _ _ _ _
          (fun cs => search rest (a + 4 * nops + 4 * wordsOf n.tokens) up cs) hdrop hlast hhead.tail.right ?_ ?_
        · refine (hin.after (r1.trans r2)).mono ?_
          simp only [hn, Node.tokens, wordsOf_append, wordsOf_cons, wordsOf_nopTokens, Token.words,
            wordsOf_nil]
          omega
        · simp only [hn, Node.tokens, wordsOf_append, wordsOf_cons, wordsOf_nopTokens, Token.words,
            wordsOf_nil] at hf ⊢
          omega
        · intro d' cs' h1 h2
          have := hrest d' cs' h1 h2
          rwa [show a + 4 * nops + 4 * (Token.beginNode name).words + 4 * wordsOf (propTokens props) +
            4 * wordsOf children.tokens + 4 * endNops + 4 = a + 4 * nops + 4 * wordsOf n.tokens by
              simp only [hn, Node.tokens, wordsOf_append, wordsOf_cons, wordsOf_nopTokens,
                Token.words, wordsOf_nil]
              omega]
    · rw [if_neg hm] at hbegin ⊢
      have hsib := @dtbNextSibling_spec _ fuel _ _ _ _ _ hnode (by rw [wordsOf_append]; omega)
      rw [hsib] at hbegin
      cases hr : rest with
      | nil =>
        rw [hr] at hbegin
        exact .now hbegin
      | cons nops' name' props' children' endNops' rest' =>
        dsimp only
        rw [← hr]
        have hjump : scan m parsed comps fuel (a + 4 * nops, d) =
            some (.inl (a + 4 * nops + 4 * wordsOf n.tokens + 4 * nops', d)) := by
          rw [hbegin, hr]
          rfl
        have hr' : Stream m (a + 4 * nops + 4 * wordsOf n.tokens)
            (nopTokens nops' ++ (Node.tokens ⟨name', props', children', endNops'⟩ ++ (rest'.tokens ++
              (nopTokens e ++ .endNode :: us)))) := by
          have := hnode.right
          rw [hr, Forest.tokens_cons] at this
          simpa using this
        have hgo := (hrest d (c :: cs) hd hcs).drop (scan_nops hr')
        refine (hgo.after ((Rounds.one hjump).within le_rfl)).mono ?_
        have := (Token.beginNode name).words_pos
        omega

end Scan

/-! ## The whole search -/

/-- What the scan finds in a tree whose structure block is at `a`. -/
def Tree.search (t : Tree) (a : Nat) : Path → Option Nat
  | [] => some a
  | cs => Dtb.search t.children (t.root.inner a) (fun _ => none) cs

theorem Tree.wordsOf_tokens (t : Tree) : wordsOf t.tokens =
    2 + wordsOf (propTokens t.props) + wordsOf t.children.tokens + t.endNops + 1 + t.tailNops + 1 := by
  simp [Tree.tokens, Tree.root, Node.tokens, Token.words]
  omega

section Whole

variable {m p : Bytes} {fuel a devicetree path : Nat} {t : Tree} {comps : Path}

theorem pathBytes_cons (c : List UInt8) (cs : Path) :
    pathBytes (c :: cs) = SLASH :: (c ++ cs.flatMap fun c => SLASH :: c) := by
  simp [pathBytes]

theorem compare_root (hok : PathOk comps) (hpath : Holds p path (pathBytes comps ++ [0]))
    (hf : 1 < fuel) : strcmpNodename fuel p path (cstr [SLASH]) 0 =
      some (if comps = [] then 0 else 1) := by
  have hclean : ∀ x ∈ pathBytes comps, x ≠ 0 := by
    intro x hx
    cases comps with
    | nil =>
      have : x = SLASH := by simpa [pathBytes] using hx
      rw [this]
      decide
    | cons c cs =>
      simp only [pathBytes, List.mem_flatMap, List.mem_cons] at hx
      obtain ⟨e, he, rfl | hx⟩ := hx
      · decide
      · exact (hok.clean e (by simpa using he) x hx).1
  have hslash : Holds (cstr [SLASH]) 0 ([SLASH] ++ [0]) := ⟨rfl, rfl, trivial⟩
  rw [strcmpNodename_spec hpath hslash hclean (by simp [SLASH]) (by simpa using hf)]
  cases comps with
  | nil => rfl
  | cons c cs =>
    have hne := hok.nonempty c List.mem_cons_self
    obtain ⟨x, c', rfl⟩ := List.exists_cons_of_ne_nil hne
    simp [pathBytes_cons, matchesName, List.isPrefixOf]

/-- **`dtb_find` finds what `search` says**, in every tree and for every path. -/
theorem dtbFind_spec (hb : Block m a t) (hdt : structBlock m devicetree = a) (hok : PathOk comps)
    (hpath : Holds p path (pathBytes comps ++ [0])) (hf : (encode t.tokens).length ≤ fuel)
    (hf' : (pathBytes comps).length < fuel) :
    dtbFind m fuel devicetree p path = some (t.search a comps) := by
  have hs := hb.stream
  rw [length_encode, t.wordsOf_tokens] at hf
  rw [Tree.tokens, Node.tokens_append] at hs
  have hw := hs.head
  simp only [Token.head] at hw
  have hfuel : 1 < fuel := by omega
  have hroot := compare_root hok hpath hfuel
  unfold dtbFind
  simp only [hdt]
  rw [if_neg (fun h => h hw), hroot]
  cases comps with
  | nil => rfl
  | cons c cs =>
    simp only [Option.bind_eq_bind, Option.bind_some]
    rw [if_neg (by simp)]
    rw [pathBytes_cons] at hpath hf'
    have hsl : p path = SLASH := hpath.1
    rw [if_neg (fun h => h hsl)]
    -- the path falls into its components
    have hsplit := @split_rest p path cs c 1 0 (Bytes.fill 0) (by simpa using hpath.2) (fun e he => hok.clean e he)
      (fun e he => hok.short e he) (by have := hok.depth; simp at this; omega)
    obtain ⟨s, hans, hdep, hpar⟩ := hsplit
    rw [hans.loop_eq (by simp at hf'; simp; omega), Option.bind_some]
    have hparsed : Parsed s.parsed (c :: cs) := by
      intro k e hk
      have := @rows_holds (c :: cs) (Bytes.fill 0) 0 k e
        (fun _ _ => rfl) (fun x hx => hok.short x hx) hk
      rwa [Nat.zero_add, ← hpar] at this
    have hdepth : s.depth = (c :: cs).length - 1 := by
      rw [hdep]
      simp
    rw [hdepth]
    -- the root: its name is a word of zeros, and its properties are passed over
    have r1 := (@scan_name _ s.parsed fuel _ 0 (c :: cs) _ _ hs 0 (by omega)).within le_rfl
    have r2 := @scan_tokens _ s.parsed fuel _ 0 (c :: cs) _ _ (plain_propTokens _) hs.tail
    have htail := hs.tail.right.right.right.tail
    simp only [wordsOf_nopTokens, Token.words] at htail
    have hscan := @scan_forest _ _ fuel _ t.children hparsed
      (fun e he x hx => (hok.clean e he x hx).1) _ t.endNops 0 (nopTokens t.tailNops ++ [.fin]) _
      (fun _ => none) rfl (by simp) hs.tail.right
      (by
        have := t.wordsOf_tokens
        simp only [wordsOf_append, wordsOf_cons, wordsOf_nopTokens, Token.words, wordsOf_nil] at *
        omega)
      (fun d' cs' _ _ => (scan_tail htail).mono (by simp [Token.words]))
    refine (hscan.after (r1.trans r2)).loop_eq ?_
    have := t.wordsOf_tokens
    simp only [wordsOf_append, wordsOf_cons, wordsOf_nopTokens, Token.words, wordsOf_nil] at *
    have hname : t.root.name.length = 0 := rfl
    have hprops : t.root.props = t.props := rfl
    rw [hprops]
    omega

end Whole

end ZeptOS.Dtb
