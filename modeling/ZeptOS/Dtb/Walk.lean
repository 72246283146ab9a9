import ZeptOS.Dtb.Encode

/-!
# Walking a device tree

`dtb_foreach_property` and `dtb_foreach_child` over the encoding of any tree. Each loop
of the reader gets one lemma a token, that a round (or as many rounds as the token has
words) takes it to the next token, and the loops are then followed along the tree.

`dtb_next_sibling` is the one that needs the tree. Its first loop counts how deep it is,
so that what it does to a forest is said at every depth: it comes out behind the forest
at the depth at which it went in (`leave_forest`, by induction on the forest).
-/

namespace ZeptOS.Dtb

open Lib

variable {m : Bytes} {fuel a : Nat} {t u : Token} {ts us : List Token}
variable {e k : Nat} {d : Int} {ps : List Property} {α : Type} {f : Forest}

/-! ## One token -/

theorem Token.head_ne_zero (t : Token) : t.head ≠ 0 := by
  cases t <;> simp only [Token.head] <;> decide

variable {name : List UInt8}

/-- `while (*token == 0) token++` behind a name: the zero word of a name that fills its
    last word, and nothing else. -/
theorem skipZeros (h : Stream m a (.beginNode name :: u :: us)) (hf : 1 < fuel) :
    loop (zeroRound m) fuel (a + 4 + 4 * ((name.length + 3) / 4)) =
      some (a + 4 * (Token.beginNode name).words) := by
  have hw : word m (a + 4 * (Token.beginNode name).words) = u.head := h.tail.head
  have hstop : zeroRound m (a + 4 * (Token.beginNode name).words) =
      some (.inr (a + 4 * (Token.beginNode name).words)) := by
    unfold zeroRound
    rw [if_neg (hw ▸ u.head_ne_zero)]
  simp only [Token.words] at *
  by_cases hl : name.length % 4 = 0
  · have hz : word m (a + 4 + 4 * (name.length / 4)) = 0 := by
      have hp : ∀ j < 4, m (a + 4 + 4 * (name.length / 4) + j) = 0 := fun j hj => by
        have := h.name_pad (k := name.length + j) (by omega) (by omega)
        rwa [show a + 4 + (name.length + j) = a + 4 + 4 * (name.length / 4) + j by omega] at this
      have h0 := hp 0 (by omega)
      rw [Nat.add_zero] at h0
      rw [word_eq, h0, hp 1 (by omega), hp 2 (by omega), hp 3 (by omega)]
      rfl
    have hstep : zeroRound m (a + 4 + 4 * ((name.length + 3) / 4)) =
        some (.inl (a + 4 * (name.length / 4 + 2))) := by
      rw [show (name.length + 3) / 4 = name.length / 4 by omega]
      unfold zeroRound
      rw [if_pos hz]
      congr 2
      omega
    exact (Rounds.one hstep).answer hstop hf
  · rw [show a + 4 + 4 * ((name.length + 3) / 4) = a + 4 * (name.length / 4 + 2) by omega]
    exact (Rounds.refl _).answer hstop (by omega)

theorem skipChars (h : Stream m a (.beginNode name :: us))
    (hf : name.length < fuel) : loop (charRound m) fuel (a + 4) = some (a + 4 + name.length) := by
  have hr : Rounds (charRound m) name.length (a + 4) (a + 4 + name.length) := by
    refine Rounds.of_forall (f := fun k => a + 4 + k) fun k hk => ?_
    unfold charRound
    rw [if_pos (h.name_ne_zero hk)]
    rfl
  refine hr.answer ?_ hf
  unfold charRound
  rw [if_neg]
  exact fun hne => hne (h.name_pad le_rfl (by omega))

def Token.Plain : Token → Prop
  | .nop | .prop _ _ => True
  | _ => False

theorem plain_nopTokens (k : Nat) : ∀ t ∈ nopTokens k, t.Plain := by
  intro t ht
  rw [List.eq_of_mem_replicate ht]
  trivial

theorem plain_propTokens (ps : List Property) : ∀ t ∈ propTokens ps, t.Plain := by
  intro t ht
  obtain ⟨p, -, hp⟩ := List.mem_flatMap.mp ht
  rcases List.mem_append.mp hp with hp | hp
  · exact plain_nopTokens _ t hp
  · rw [List.mem_singleton.mp hp]
    trivial

theorem dtbNextToken_plain (h : Stream m a (t :: us)) (ht : t.Plain) :
    dtbNextToken m fuel a = some (a + 4 * t.words) := by
  unfold dtbNextToken
  rw [h.head]
  cases t with
  | prop nameoff value =>
    rw [h.prop_length, valueWords_eq h.prop_wf.2]
    rfl
  | nop => rfl
  | _ => exact ht.elim

/-- **`dtb_next_token` goes from a token to the next.** -/
theorem dtbNextToken_spec (h : Stream m a (t :: u :: us)) (ht : t ≠ .fin)
    (hf : 4 * t.words ≤ fuel) : dtbNextToken m fuel a = some (a + 4 * t.words) := by
  unfold dtbNextToken
  cases t with
  | beginNode name =>
    rw [if_pos (by rw [h.head]; rfl)]
    simp only [Token.words] at hf
    have hc := @skipChars _ fuel _ _ _ h (by omega)
    have hz := @skipZeros _ fuel _ _ _ _ h (by omega)
    have ha := h.aligned
    have hpad : (if (a + 4 + name.length) % 4 ≠ 0 then
        a + 4 + name.length + (4 - (a + 4 + name.length) % 4) else a + 4 + name.length) =
        a + 4 + 4 * ((name.length + 3) / 4) := by
      split <;> omega
    simp only [hc, Option.bind_eq_bind, Option.bind_some, hpad, hz]
  | endNode =>
    rw [h.head]
    rfl
  | prop nameoff value => exact dtbNextToken_plain h trivial
  | nop => exact dtbNextToken_plain h trivial
  | fin => exact absurd rfl ht

/-- **A stretch of tokens**, from what the loop does with each of them. -/
theorem within_tokens {σ : Type} {body : σ → Option (σ ⊕ α)} (pos : Nat → σ) :
    ∀ {ts : List Token} {a : Nat},
    (∀ t ∈ ts, ∀ b us, Stream m b (t :: us) → Within body t.words (pos b) (pos (b + 4 * t.words))) →
    Stream m a (ts ++ us) → Within body (wordsOf ts) (pos a) (pos (a + 4 * wordsOf ts)) := by
  intro ts
  induction ts with
  | nil => intro a _ _; exact (Rounds.refl _).within (Nat.zero_le _)
  | cons t ts ih =>
    intro a hb h
    have r := ih (fun t ht => hb t (List.mem_cons_of_mem _ ht)) h.tail
    rw [Nat.add_assoc, ← Nat.mul_add] at r
    exact (hb t List.mem_cons_self a _ h).trans r

theorem within_nops {body : Nat → Option (Nat ⊕ α)}
    (hb : ∀ b us, Stream m b (.nop :: us) → body b = some (.inl (b + 4)))
    (h : Stream m a (nopTokens k ++ us)) : Within body k a (a + 4 * k) := by
  rw [← wordsOf_nopTokens k]
  refine within_tokens id (fun t ht b us hs => ?_) h
  obtain rfl := List.eq_of_mem_replicate ht
  exact (Rounds.one (hb b us hs)).within le_rfl

/-- What may stand behind the properties of a node: it begins a child or ends the node. -/
def Token.Bounds : Token → Prop
  | .beginNode _ => True
  | .endNode => True
  | _ => False

theorem Forest.opening (f : Forest) (e : Nat) (us : List Token) :
    ∃ k v vs, f.tokens ++ (nopTokens e ++ .endNode :: us) = nopTokens k ++ v :: vs ∧ v.Bounds ∧
      ∀ a, (f.nodes a).head?.map Prod.fst = match v with
        | .beginNode _ => some (a + 4 * k)
        | _ => none := by
  cases f with
  | nil => exact ⟨e, .endNode, us, rfl, trivial, fun _ => rfl⟩
  | cons nops name props children endNops rest =>
    refine ⟨nops, .beginNode name, propTokens props ++ (children.tokens ++ (nopTokens endNops ++
      .endNode :: (rest.tokens ++ (nopTokens e ++ .endNode :: us)))), ?_, trivial, fun _ => rfl⟩
    simp [Forest.tokens]

/-! ## Properties -/

theorem propertyRound_nop (h : Stream m a (.nop :: us)) :
    propertyRound m fuel a = some (.inl (a + 4)) := by
  unfold propertyRound
  rw [h.head, dtbNextToken_plain h trivial]
  rfl

theorem exists_token (ps : List Property) (k : Nat) (u : Token) (us : List Token) :
    ∃ v vs, propTokens ps ++ (nopTokens k ++ u :: us) = v :: vs := by
  cases h : propTokens ps ++ (nopTokens k ++ u :: us) with
  | nil => exact absurd h (by simp)
  | cons v vs => exact ⟨v, vs, rfl⟩

theorem seekProperty_spec (h : Stream m a (t :: (propTokens ps ++ (nopTokens k ++ u :: us))))
    (ht : t ≠ .fin) (hu : u.Bounds)
    (hf : 4 * wordsOf (t :: (propTokens ps ++ (nopTokens k ++ u :: us))) ≤ fuel) :
    seekProperty m fuel a = some (propsFrom ps (a + 4 * t.words)).head? := by
  obtain ⟨v, vs, hv⟩ := exists_token ps k u us
  have hnext : dtbNextToken m fuel a = some (a + 4 * t.words) := by
    rw [hv] at h
    refine dtbNextToken_spec h ht ?_
    rw [wordsOf_cons] at hf
    omega
  have hs := h.tail
  have htw := t.words_pos
  unfold seekProperty
  simp only [hnext, Option.bind_eq_bind, Option.bind_some]
  cases ps with
  | nil =>
    have hw : word m (a + 4 * t.words + 4 * k) = u.head := by
      have := hs.right.right.head
      simpa [propTokens] using this
    refine (within_nops (fun _ _ => propertyRound_nop) (k := k) hs).answer ?_ ?_
    · unfold propertyRound
      rw [hw]
      cases u with
      | beginNode | endNode => rfl
      | _ => exact hu.elim
    · simp only [propTokens, List.flatMap_nil, wordsOf_cons, wordsOf_append, wordsOf_nopTokens,
        List.nil_append] at hf
      omega
  | cons p ps =>
    rw [propTokens_cons] at hs hf
    have hw := hs.right.head
    simp only [wordsOf_nopTokens, Token.head] at hw
    refine (within_nops (fun _ _ => propertyRound_nop) hs).answer ?_ ?_
    · unfold propertyRound
      rw [if_pos hw]
      rfl
    · simp only [wordsOf_cons, wordsOf_append, wordsOf_nopTokens] at hf
      omega

theorem visit_properties (hu : u.Bounds) : ∀ {a n : Nat},
    Stream m a (propTokens ps ++ (nopTokens k ++ u :: us)) →
    4 * wordsOf (propTokens ps ++ (nopTokens k ++ u :: us)) ≤ fuel → ps.length < n →
    visit (dtbNextProperty m fuel) n (propsFrom ps a).head? = some (propsFrom ps a) := by
  induction ps with
  | nil =>
    intro a n _ _ hn
    obtain ⟨n, rfl⟩ : ∃ j, n = j + 1 := ⟨n - 1, by simp at hn; omega⟩
    rfl
  | cons p ps ih =>
    intro a n h hf hn
    obtain ⟨n, rfl⟩ : ∃ j, n = j + 1 := ⟨n - 1, by simp at hn; omega⟩
    rw [propTokens_cons] at h hf
    have h1 := h.right
    rw [wordsOf_nopTokens] at h1
    rw [wordsOf_append, wordsOf_nopTokens] at hf
    have hnext : dtbNextProperty m fuel (a + 4 * p.nops) =
        some (propsFrom ps (a + 4 * wordsOf p.tokens)).head? := by
      have hseek := @seekProperty_spec _ fuel _ _ _ _ _ _ h1 (by simp) hu (by omega)
      rw [dtbNextProperty, hseek]
      rw [p.wordsOf_tokens, Nat.mul_add, Nat.add_assoc]
    have htail : Stream m (a + 4 * wordsOf p.tokens) (propTokens ps ++ (nopTokens k ++ u :: us)) := by
      rw [p.wordsOf_tokens, Nat.mul_add, ← Nat.add_assoc]
      exact h1.tail
    have hrest := ih (n := n) htail (by rw [wordsOf_cons] at hf; omega) (by simpa using hn)
    simp only [propsFrom, List.head?_cons, visit, hnext, hrest, Option.bind_eq_bind,
      Option.bind_some, Option.pure_def]

/-! ## Children -/

theorem child_tokens (hts : ∀ t ∈ ts, t.Plain) (h : Stream m a (ts ++ us)) :
    Within (childRound m fuel) (wordsOf ts) a (a + 4 * wordsOf ts) := by
  refine within_tokens id (fun t ht b us hs => ?_) h
  refine (Rounds.one ?_).within t.words_pos
  have hn := @dtbNextToken_plain _ fuel _ _ _ hs (hts t ht)
  unfold childRound
  rw [id, hs.head, hn]
  cases t with
  | nop | prop => rfl
  | _ => exact (hts _ ht).elim

variable {n : Node}

/-- **`dtb_first_child` finds the first child**, if there is one. -/
theorem dtbFirstChild_spec (h : Stream m a (n.tokens ++ us))
    (hf : 4 * wordsOf (n.tokens ++ us) ≤ fuel) :
    dtbFirstChild m fuel a = some ((n.childrenAt a).head?.map Prod.fst) := by
  obtain ⟨k, v, vs, hvs, hb, hhead⟩ := n.children.opening n.endNops us
  rw [Node.tokens_append, hvs] at h hf
  rw [wordsOf_cons] at hf
  have htail := h.tail
  have hnext : dtbNextToken m fuel a = some (a + 4 * (Token.beginNode n.name).words) := by
    obtain ⟨x, xs, hx⟩ := exists_token n.props k v vs
    rw [hx] at h
    exact dtbNextToken_spec h (by simp) (by omega)
  have hw : word m (n.inner a + 4 * k) = v.head := by
    have := htail.right.right.head
    simpa [Node.inner] using this
  have hwalk := (@child_tokens _ fuel _ _ _ (plain_propTokens _) htail).trans
    (child_tokens (plain_nopTokens _) htail.right)
  rw [wordsOf_nopTokens] at hwalk
  unfold dtbFirstChild
  simp only [hnext, Option.bind_eq_bind, Option.bind_some]
  rw [Node.childrenAt, hhead]
  have hpos := v.words_pos
  refine @Within.answer _ _ _ _ _ (n.inner a + 4 * k) _ _ hwalk ?_ ?_
  · unfold childRound
    rw [hw]
    cases v with
    | beginNode | endNode => rfl
    | _ => exact hb.elim
  · simp only [wordsOf_append, wordsOf_nopTokens, wordsOf_cons] at hf
    omega

/-! ## Siblings -/

theorem leave_begin (h : Stream m a (.beginNode name :: us)) :
    Within (leaveRound m) (Token.beginNode name).words (a, d)
      (a + 4 * (Token.beginNode name).words, d + 1) := by
  have hfirst : leaveRound m (a, d) = some (.inl (a + 4 + 4, d + 1)) := by
    simp only [leaveRound]
    rw [h.head]
    rfl
  have hname : Rounds (leaveRound m) (name.length / 4) (a + 4 + 4 * 1, d + 1)
      (a + 4 + 4 * (1 + name.length / 4), d + 1) := by
    refine Rounds.of_forall (f := fun k => (a + 4 + 4 * (1 + k), d + 1)) fun k hk => ?_
    obtain ⟨n1, n2, n3, n4, n5⟩ := (h.name_inert (i := 1 + k) (by omega)).ne
    simp only [leaveRound]
    rw [if_neg n5, if_neg n1, if_neg n3, if_neg n2]
    rfl
  refine ⟨_, ?_, Rounds.step hfirst (k := name.length / 4) ?_⟩
  · simp only [Token.words]
    omega
  · simp only [Token.words]
    rwa [show a + 4 * (name.length / 4 + 2) = a + 4 + 4 * (1 + name.length / 4) by omega]

theorem leave_tokens (hts : ∀ t ∈ ts, t.Plain) (h : Stream m a (ts ++ us)) :
    Within (leaveRound m) (wordsOf ts) (a, d) (a + 4 * wordsOf ts, d) := by
  refine within_tokens (fun b => (b, d)) (fun t ht b us hs => ?_) h
  refine (Rounds.one ?_).within t.words_pos
  simp only [leaveRound]
  rw [hs.head]
  cases t with
  | nop => rfl
  | prop o v =>
    rw [hs.prop_length, valueWords_eq hs.prop_wf.2]
    rfl
  | _ => exact (hts _ ht).elim

/-- **What is inside a forest is left at the depth it was entered.** -/
theorem leave_forest : ∀ {a : Nat} {us : List Token} {d : Int}, 0 < d →
    Stream m a (f.tokens ++ us) →
    Within (leaveRound m) (wordsOf f.tokens) (a, d) (a + 4 * wordsOf f.tokens, d) := by
  induction f with
  | nil => intro a us d _ _; exact (Rounds.refl _).within (Nat.zero_le _)
  | cons nops name props children endNops rest ihc ihr =>
    intro a us d hd h
    have hts : (Forest.cons nops name props children endNops rest).tokens ++ us =
        nopTokens nops ++ (.beginNode name :: (propTokens props ++ (children.tokens ++
          (nopTokens endNops ++ (.endNode :: (rest.tokens ++ us)))))) := by
      simp [Forest.tokens]
    rw [hts] at h
    have s1 := h.right
    have s2 := s1.tail
    have s3 := s2.right
    have s4 := s3.right
    have s5 := s4.right
    have hw := s5.head
    have r1 := leave_tokens (d := d) (plain_nopTokens _) h
    have r2 := leave_begin (d := d) s1
    have r3 := leave_tokens (d := d + 1) (plain_propTokens _) s2
    have r4 := ihc (d := d + 1) (by omega) s3
    have r5 := leave_tokens (d := d + 1) (plain_nopTokens _) s4
    have hend := s5.tail
    simp only [Token.words] at hend
    simp only [wordsOf_nopTokens] at *
    have r6 := ihr hd hend
    -- the end of the node: its depth is above the depth at which the loop stops
    have hstep : leaveRound m (a + 4 * nops + 4 * (Token.beginNode name).words +
        4 * wordsOf (propTokens props) + 4 * wordsOf children.tokens + 4 * endNops, d + 1) =
        some (.inl (a + 4 * nops + 4 * (Token.beginNode name).words +
          4 * wordsOf (propTokens props) + 4 * wordsOf children.tokens + 4 * endNops + 4, d)) := by
      simp only [leaveRound]
      rw [hw, if_neg (by decide), if_neg (by decide), if_neg (by decide), if_pos (by rfl), if_neg (by omega),
        Int.add_sub_cancel]
    obtain ⟨j, hj, r⟩ := ((((r1.trans r2).trans r3).trans r4).trans r5).trans
      (((Rounds.one hstep).within le_rfl).trans r6)
    have hwords : wordsOf (Forest.cons nops name props children endNops rest).tokens =
        nops + (Token.beginNode name).words + wordsOf (propTokens props) +
          wordsOf children.tokens + endNops + (1 + wordsOf rest.tokens) := by
      simp [Forest.tokens, Token.words]
      omega
    rw [hwords]
    refine ⟨j, hj, ?_⟩
    rwa [show a + 4 * (nops + (Token.beginNode name).words + wordsOf (propTokens props) +
      wordsOf children.tokens + endNops + (1 + wordsOf rest.tokens)) =
      a + 4 * nops + 4 * (Token.beginNode name).words + 4 * wordsOf (propTokens props) +
      4 * wordsOf children.tokens + 4 * endNops + 4 * 1 + 4 * wordsOf rest.tokens by omega]

theorem leave_node (h : Stream m a (n.tokens ++ us)) (hf : wordsOf n.tokens < fuel) :
    loop (leaveRound m) fuel (a, 0) = some (a + 4 * wordsOf n.tokens) := by
  have hwords : wordsOf n.tokens = (Token.beginNode n.name).words + wordsOf (propTokens n.props) +
      wordsOf n.children.tokens + n.endNops + 1 := by
    simp [Node.tokens, Token.words]
    omega
  rw [Node.tokens_append] at h
  have s2 := h.tail
  have s3 := s2.right
  have s4 := s3.right
  have hw := s4.right.head
  rw [wordsOf_nopTokens] at hw
  have r1 := leave_begin (d := 0) h
  have r2 := leave_tokens (d := 0 + 1) (plain_propTokens _) s2
  have r3 := leave_forest (d := 0 + 1) (by omega) s3
  have r4 := leave_tokens (d := 0 + 1) (plain_nopTokens _) s4
  rw [wordsOf_nopTokens] at r4
  refine (((r1.trans r2).trans r3).trans r4).answer ?_ (by omega)
  simp only [leaveRound]
  rw [hw, hwords]
  show some (Sum.inr (_ + 4)) = _
  congr 2
  omega

/-- **`dtb_next_sibling` finds the next of its parent's children**, if there is one. -/
theorem dtbNextSibling_spec {rest : Forest}
    (h : Stream m a (n.tokens ++ (rest.tokens ++ (nopTokens e ++ .endNode :: us))))
    (hf : 4 * wordsOf (n.tokens ++ (rest.tokens ++ (nopTokens e ++ .endNode :: us))) ≤ fuel) :
    dtbNextSibling m fuel a =
      some ((rest.nodes (a + 4 * wordsOf n.tokens)).head?.map Prod.fst) := by
  have hleave := @leave_node _ fuel _ _ _ h (by
    have : 0 < wordsOf n.tokens := by
      simp only [Node.tokens, wordsOf_cons]
      have := (Token.beginNode n.name).words_pos
      omega
    rw [wordsOf_append] at hf
    omega)
  obtain ⟨k, v, vs, hvs, hb, hhead⟩ := rest.opening e us
  rw [wordsOf_append] at hf
  have hs := h.right
  rw [hvs] at hs hf
  have hw : word m (a + 4 * wordsOf n.tokens + 4 * k) = v.head := by
    have := hs.right.head
    simpa using this
  have hnop : ∀ b us, Stream m b (.nop :: us) → siblingRound m b = some (.inl (b + 4)) := by
    intro b us hb
    unfold siblingRound
    rw [hb.head]
    rfl
  unfold dtbNextSibling
  simp only [hleave, Option.bind_eq_bind, Option.bind_some]
  rw [hhead]
  have hpos := v.words_pos
  refine (within_nops hnop hs).answer ?_ ?_
  · unfold siblingRound
    rw [hw]
    cases v with
    | beginNode | endNode => rfl
    | _ => exact hb.elim
  · simp only [wordsOf_append, wordsOf_nopTokens, wordsOf_cons] at hf
    omega

theorem Forest.length_nodes (f : Forest) : ∀ a, (f.nodes a).length ≤ wordsOf f.tokens := by
  induction f with
  | nil => intro a; simp [Forest.nodes]
  | cons nops name props children endNops rest _ ih =>
    intro a
    have := ih (a + 4 * nops + 4 * wordsOf (Node.tokens ⟨name, props, children, endNops⟩))
    have hpos := (Token.beginNode name).words_pos
    rw [Forest.tokens_cons]
    simp only [Forest.nodes, List.length_cons, wordsOf_append, Node.tokens, wordsOf_cons] at *
    omega

theorem visit_nodes : ∀ {a n : Nat}, Stream m a (f.tokens ++ (nopTokens e ++ .endNode :: us)) →
    4 * wordsOf (f.tokens ++ (nopTokens e ++ .endNode :: us)) ≤ fuel → (f.nodes a).length < n →
    visit (dtbNextSibling m fuel) n ((f.nodes a).head?.map Prod.fst) =
      some ((f.nodes a).map Prod.fst) := by
  induction f with
  | nil =>
    intro a n _ _ hn
    obtain ⟨n, rfl⟩ : ∃ j, n = j + 1 := ⟨n - 1, by omega⟩
    rfl
  | cons nops name props children endNops rest _ ih =>
    intro a n h hf hn
    obtain ⟨n, rfl⟩ : ∃ j, n = j + 1 := ⟨n - 1, by omega⟩
    rw [Forest.tokens_cons, List.append_assoc, List.append_assoc] at h hf
    have h1 := h.right
    rw [wordsOf_nopTokens] at h1
    rw [wordsOf_append, wordsOf_nopTokens] at hf
    have hnext := @dtbNextSibling_spec _ fuel _ _ _ _ _ h1 (by omega)
    have hrest := ih (n := n) h1.right (by rw [wordsOf_append] at hf; omega) (by
      simp only [Forest.nodes, List.length_cons] at hn
      omega)
    simp only [Forest.nodes, List.head?_cons, Option.map_some, visit, hnext, hrest,
      Option.bind_eq_bind, Option.bind_some, Option.pure_def, List.map_cons]

/-! ## The traversal -/

def ReadsAs (m : Bytes) (a : Nat) (p : Property) : Prop :=
  dtbPropertyLength m a = p.value.length ∧ m.slice (dtbPropertyArray a) p.value.length = p.value ∧
    DTB_BYTESWAP32 (word m (a + 8)) = p.nameoff

theorem readsAs_props : ∀ {a : Nat}, Stream m a (propTokens ps ++ us) →
    List.Forall₂ (ReadsAs m) (propsFrom ps a) ps := by
  induction ps with
  | nil => intro a _; exact .nil
  | cons p ps ih =>
    intro a h
    rw [propTokens_cons] at h
    have h1 := h.right
    rw [wordsOf_nopTokens] at h1
    refine .cons ⟨h1.prop_length, h1.prop_value, h1.prop_nameoff⟩ ?_
    refine ih ?_
    rw [p.wordsOf_tokens, Nat.mul_add, ← Nat.add_assoc]
    exact h1.tail

theorem length_le_words (ps : List Property) : ps.length ≤ wordsOf (propTokens ps) := by
  induction ps with
  | nil => simp
  | cons p ps ih =>
    have hpos := (Token.prop p.nameoff p.value).words_pos
    rw [wordsOf_propTokens_cons, List.length_cons]
    omega

theorem foreachProperty_spec (h : Stream m a (n.tokens ++ us))
    (hf : 4 * wordsOf (n.tokens ++ us) ≤ fuel) : foreachProperty m fuel a = some (n.propsAt a) := by
  obtain ⟨k, v, vs, hvs, hb, -⟩ := n.children.opening n.endNops us
  rw [Node.tokens_append, hvs] at h hf
  have hfirst := @seekProperty_spec _ fuel _ _ _ _ _ _ h (by simp) hb hf
  rw [wordsOf_cons] at hf
  have hvisit := @visit_properties _ fuel _ _ _ _ hb _ fuel h.tail (by omega) (by
    have := length_le_words n.props
    have hpos := (Token.beginNode n.name).words_pos
    rw [wordsOf_append] at hf
    omega)
  unfold foreachProperty
  simp only [dtbFirstProperty, hfirst, Option.bind_eq_bind, Option.bind_some]
  exact hvisit

theorem foreachChild_spec (h : Stream m a (n.tokens ++ us))
    (hf : 4 * wordsOf (n.tokens ++ us) ≤ fuel) :
    foreachChild m fuel a = some ((n.childrenAt a).map Prod.fst) := by
  have hfirst := @dtbFirstChild_spec _ fuel _ _ _ h hf
  rw [Node.tokens_append] at h hf
  rw [wordsOf_cons, wordsOf_append] at hf
  have hvisit := @visit_nodes _ fuel _ _ _ _ fuel h.tail.right (by omega) (by
    have := n.children.length_nodes (a + 4 * (Token.beginNode n.name).words +
      4 * wordsOf (propTokens n.props))
    have hpos := (Token.beginNode n.name).words_pos
    rw [wordsOf_append] at hf
    omega)
  unfold foreachChild
  simp only [hfirst, Option.bind_eq_bind, Option.bind_some]
  exact hvisit

/-! ## Every node of every tree -/

def Node.stop (n : Node) (a : Nat) : Nat := a + 4 * wordsOf n.tokens

theorem propsFrom_bounds : ∀ {a p : Nat}, p ∈ propsFrom ps a →
    a ≤ p ∧ p < a + 4 * wordsOf (propTokens ps) := by
  induction ps with
  | nil => intro a p h; exact absurd h (by simp [propsFrom])
  | cons q ps ih =>
    intro a p h
    have hpos := (Token.prop q.nameoff q.value).words_pos
    rw [wordsOf_propTokens_cons]
    rcases List.mem_cons.mp h with rfl | h
    · omega
    · have := ih h
      rw [q.wordsOf_tokens] at this
      omega

theorem nodes_bounds : ∀ {a c : Nat}, c ∈ (f.nodes a).map Prod.fst →
    a ≤ c ∧ c < a + 4 * wordsOf f.tokens := by
  induction f with
  | nil => intro a c h; exact absurd h (by simp [Forest.nodes])
  | cons nops name props children endNops rest _ ih =>
    intro a c h
    have hpos := (Token.beginNode name).words_pos
    rw [Forest.tokens_cons]
    simp only [Forest.nodes, List.map_cons, List.mem_cons] at h
    simp only [wordsOf_append, wordsOf_nopTokens]
    rcases h with rfl | h
    · simp only [Node.tokens, wordsOf_cons]
      omega
    · have := ih h
      omega

theorem Block.foreach {t : Tree} {b : Nat} (h : Block m a t)
    (hf : (encode t.tokens).length ≤ fuel) (hn : t.Has a b n) :
    foreachProperty m fuel b = some (n.propsAt b) ∧
      foreachChild m fuel b = some ((n.childrenAt b).map Prod.fst) := by
  obtain ⟨us, hs, hw⟩ := h.stream.has hn
  rw [length_encode] at hf
  have hfuel : 4 * wordsOf (n.tokens ++ us) ≤ fuel := by omega
  exact ⟨foreachProperty_spec hs hfuel, foreachChild_spec hs hfuel⟩

/-- **A traversal recovers the tree.** At every node of a tree in memory, the loop over
    its properties ends and visits exactly its own, in order, each with its length, value
    and name as encoded; the loop over its children ends and visits exactly them, in
    order; and neither leaves the node. One round a byte of the block is enough. -/
theorem traversal_recovers {t : Tree} (h : Block m a t) (hf : (encode t.tokens).length ≤ fuel) :
    ∀ b n, t.Has a b n → Holds m (b + 4) (n.name ++ [0]) ∧
      foreachProperty m fuel b = some (n.propsAt b) ∧
      List.Forall₂ (ReadsAs m) (n.propsAt b) n.props ∧
      foreachChild m fuel b = some ((n.childrenAt b).map Prod.fst) ∧
      (∀ p ∈ n.propsAt b, b < p ∧ p < n.stop b) ∧
      ∀ c ∈ (n.childrenAt b).map Prod.fst, b < c ∧ c < n.stop b := by
  intro b n hn
  obtain ⟨hprops, hchildren⟩ := h.foreach hf hn
  obtain ⟨us, hs, -⟩ := h.stream.has hn
  refine ⟨?_, hprops, ?_, hchildren, fun p hp => ?_, fun c hc => ?_⟩
  · exact (n.tokens_append us ▸ hs).nameString
  · exact readsAs_props (n.tokens_append us ▸ hs).tail
  · have := propsFrom_bounds hp
    have hpos := (Token.beginNode n.name).words_pos
    simp only [Node.stop, Node.tokens, wordsOf_cons, wordsOf_append]
    omega
  · have := nodes_bounds hc
    have hpos := (Token.beginNode n.name).words_pos
    simp only [Node.stop, Node.inner, Node.tokens, wordsOf_cons, wordsOf_append] at *
    omega

/-- A root with a property of five bytes and two children, with `DTB_NOP` tokens around. -/
def sampleTree : Tree where
  props := [⟨1, 0, [1, 2, 3, 4, 5]⟩]
  children :=
    .cons 0 (chars ['a']) [⟨0, 4, []⟩] .nil 1 (.cons 2 (chars ['b', '@', '1', '0']) [] .nil 0 .nil)
  endNops := 1
  tailNops := 1

/-- The traversal of the root of that tree in memory. -/
theorem traversal_recovers_sample :
    foreachProperty (memoryAt 64 (blob sampleTree [])) 200 104 = some [116] ∧
      foreachChild (memoryAt 64 (blob sampleTree [])) 200 104 = some [136, 172] := by
  have hblock : Block (memoryAt 64 (blob sampleTree [])) 104 sampleTree :=
    block_blob (a := 64) (by decide) (by decide) (by decide +kernel)
  obtain ⟨-, hp, -, hc, -, -⟩ := @traversal_recovers _ 200 _ _ hblock (by decide) 104 _ .root
  exact ⟨hp, hc⟩

end ZeptOS.Dtb
