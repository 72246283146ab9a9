import Mathlib.Data.List.Forall2
import ZeptOS.Dtb.Resolve

/-!
# Looking up a sibling, and a phandle

`dtb_find_next` walks the later siblings of a node, `dtb_find_by_phandle` all nodes below the
root, depth first. Both stop at the first node they like, and both like a node by what
`strcmp_nodename` says. That function lets its second argument go on with a unit address. In
`dtb_find_next` the second argument is the name that is asked for and not the one of the node.
-/

namespace ZeptOS.Dtb

open Lib

/-! ## The functions -/

/-- A `for (p = first; p != NULL; p = next(p))` that returns from its body: the first answer of
    `body`. -/
def firstOf (next body : Nat → Option (Option Nat)) : Nat → Option Nat → Option (Option Nat)
  | 0, _ => none
  | _ + 1, none => some none
  | fuel + 1, some p => do
    match ← body p with
    | some r => pure (some r)
    | none => do
      let q ← next p
      firstOf next body fuel q

def dtbNodeName (node : Nat) : Nat := node + 4

def dtbFindNext (m : Bytes) (fuel node : Nat) (p : Bytes) (name : Nat) : Option (Option Nat) := do
  let node ← dtbNextSibling m fuel node
  firstOf (dtbNextSibling m fuel) (fun node => do
    let r ← strcmpNodename fuel m (dtbNodeName node) p name
    pure (if r = 0 then some node else none)) fuel node

def namePhandle : List Char := ['p', 'h', 'a', 'n', 'd', 'l', 'e']

/-- The condition of the inner loop of `find_by_phandle_from`. -/
def isPhandle (m : Bytes) (fuel devicetree phandle prop : Nat) : Option Bool := do
  let r ← strcmpNodename fuel (cstr (chars namePhandle)) 0 m (dtbPropertyName m devicetree prop)
  pure (r == 0 && dtbPropertyUint32 m prop == phandle)

/-- The first argument bounds the depth of the recursion, the second the loops. -/
def findByPhandleFrom (m : Bytes) (devicetree phandle : Nat) : Nat → Nat → Nat → Option (Option Nat)
  | 0, _, _ => none
  | depth + 1, fuel, start => do
    let child ← dtbFirstChild m fuel start
    firstOf (dtbNextSibling m fuel) (fun child => do
      let prop ← dtbFirstProperty m fuel child
      let hit ← firstOf (dtbNextProperty m fuel) (fun prop => do
        let r ← isPhandle m fuel devicetree phandle prop
        pure (if r then some child else none)) fuel prop
      match hit with
      | some r => pure (some r)
      | none => findByPhandleFrom m devicetree phandle depth fuel child) fuel child

def dtbFindByPhandle (m : Bytes) (fuel devicetree phandle : Nat) : Option (Option Nat) := do
  match ← dtbFind m fuel devicetree (cstr [SLASH]) 0 with
  | some root => findByPhandleFrom m devicetree phandle fuel fuel root
  | none => none

variable {next body : Nat → Option (Option Nat)}

/-- A loop that would visit these places and whose body answers so at what stands there finds the
    first answer. -/
theorem firstOf_eq {β : Type} {g : β → Option Nat} :
    ∀ {fuel : Nat} {p : Option Nat} {ps : List Nat} {ys : List β}, visit next fuel p = some ps →
    List.Forall₂ (fun q y => body q = some (g y)) ps ys →
    firstOf next body fuel p = some (ys.findSome? g) := by
  intro fuel
  induction fuel with
  | zero => intro p ps ys h; exact nomatch h
  | succ fuel ih =>
    intro p ps ys h hbody
    cases p with
    | none =>
      obtain rfl : [] = ps := by simpa [visit] using h
      cases hbody
      rfl
    | some p =>
      simp only [visit, Option.bind_eq_bind, Option.bind_eq_some_iff, Option.pure_def,
        Option.some.injEq] at h
      obtain ⟨q, hq, qs, hqs, rfl⟩ := h
      obtain ⟨y, ys, hy, hys, rfl⟩ := List.forall₂_cons_left_iff.mp hbody
      simp only [firstOf, hy, Option.bind_eq_bind, Option.bind_some, List.findSome?_cons]
      cases g y with
      | some r => rfl
      | none =>
        simp only [hq, Option.bind_some]
        exact ih hqs hys

theorem foreach_firstOf {β : Type} {g : β → Option Nat}
    {first : Option (Option Nat)} {fuel : Nat} {ps : List Nat} {ys : List β}
    (h : (first.bind fun p => visit next fuel p) = some ps)
    (hbody : List.Forall₂ (fun q y => body q = some (g y)) ps ys) :
    (first.bind fun p => firstOf next body fuel p) = some (ys.findSome? g) := by
  obtain ⟨p, hp, hv⟩ := Option.bind_eq_some_iff.mp h
  rw [hp]
  exact firstOf_eq hv hbody

theorem findSome_ite {β : Type} (P : β → Bool) (f : β → Nat) (l : List β) :
    (l.findSome? fun y => if P y then some (f y) else none) = (l.find? P).map f := by
  induction l with
  | nil => rfl
  | cons y l ih => cases h : P y <;> simp [h, ih]

/-! ## The next sibling of a name -/

section Next

variable {m p : Bytes} {fuel a b c i : Nat} {t : Tree} {n k : Node} {us : List Token}
variable {before after : List (Nat × Node)} {name : List UInt8}

theorem Forest.nodes_sorted (f : Forest) : ∀ a, ((f.nodes a).map Prod.fst).Pairwise (· < ·) := by
  induction f with
  | nil => intro a; exact .nil
  | cons nops name props children endNops rest _ ih =>
    intro a
    refine .cons (fun c hc => ?_) (ih _)
    have hlow := (nodes_bounds hc).1
    have hpos := (Token.beginNode name).words_pos
    simp only [Node.tokens, wordsOf_cons] at hlow
    omega

theorem Stream.siblings {e : Nat} {f : Forest} : ∀ {a : Nat} {before : List (Nat × Node)},
    Stream m a (f.tokens ++ (nopTokens e ++ .endNode :: us)) →
    f.nodes a = before ++ (c, k) :: after →
    ∃ rest : Forest, Stream m c (k.tokens ++ (rest.tokens ++ (nopTokens e ++ .endNode :: us))) ∧
      after = rest.nodes (c + 4 * wordsOf k.tokens) ∧
      wordsOf (k.tokens ++ (rest.tokens ++ (nopTokens e ++ .endNode :: us))) ≤
        wordsOf (f.tokens ++ (nopTokens e ++ .endNode :: us)) := by
  induction f with
  | nil => intro a before _ h; simp [Forest.nodes] at h
  | cons nops name props children endNops rest _ ih =>
    intro a before h hn
    rw [Forest.tokens_cons, List.append_assoc, List.append_assoc] at h ⊢
    have h1 := h.right
    rw [wordsOf_nopTokens] at h1
    rw [wordsOf_append (nopTokens nops)]
    cases before with
    | nil =>
      simp only [Forest.nodes, List.nil_append, List.cons.injEq, Prod.mk.injEq] at hn
      obtain ⟨⟨rfl, rfl⟩, rfl⟩ := hn
      exact ⟨rest, h1, rfl, by omega⟩
    | cons x before =>
      simp only [Forest.nodes, List.cons_append, List.cons.injEq] at hn
      obtain ⟨rest', hs, hafter, hw⟩ := ih h1.right hn.2
      refine ⟨rest', hs, hafter, hw.trans ?_⟩
      rw [wordsOf_append (Node.tokens _)]
      omega

/-- Two searches in a list without repetition, the second for more: they agree when what the
    second finds first is something the first looks for. -/
theorem find_eq_find_iff {l : List (Nat × Node)} {E P : Nat × Node → Bool}
    (hl : (l.map Prod.fst).Pairwise (· < ·)) (hEP : ∀ x, E x = true → P x = true) :
    (l.find? E).map Prod.fst = (l.find? P).map Prod.fst ↔ ∀ x, l.find? P = some x → E x = true := by
  induction l with
  | nil => simp
  | cons y l ih =>
    rw [List.map_cons, List.pairwise_cons] at hl
    by_cases hE : E y = true
    · simp [hE, hEP y hE]
    by_cases hP : P y = true
    · simp only [List.find?_cons, hE, hP, Option.map_some, Option.some.injEq, forall_eq',
        Option.map_eq_some_iff, Bool.false_eq_true, iff_false]
      rintro ⟨z, hz, he⟩
      have := hl.1 z.1 (List.mem_map_of_mem (List.mem_of_find?_eq_some hz))
      omega
    · simpa [List.find?_cons, hE, hP] using ih hl.2

/-- With a name that has no unit address in the second place, only equal names compare equal. -/
theorem matchesName_swapped (hname : ∀ x ∈ name, x ≠ 0 ∧ x ≠ AT) (c : List UInt8) :
    matchesName c name = (c == name) := by
  rw [Bool.eq_iff_iff, matchesName_iff, beq_iff_eq]
  constructor
  · rintro (rfl | ⟨unit, rfl⟩)
    · rfl
    · exact absurd rfl (hname AT (by simp)).2
  · rintro rfl
    exact .inl rfl

theorem dtbFindNext_spec (hb : Block m a t) (hf : (encode t.tokens).length ≤ fuel)
    (hn : t.Has a b n) (hc : n.childrenAt b = before ++ (c, k) :: after)
    (hp : Holds p i (name ++ [0])) (hname : ∀ x ∈ name, x ≠ 0 ∧ x ≠ AT) (hlen : name.length < fuel) :
    dtbFindNext m fuel c p i = some ((after.find? fun x => x.2.name == name).map Prod.fst) := by
  obtain ⟨us, hs, hw⟩ := hb.stream.has hn
  rw [length_encode] at hf
  rw [Node.tokens_append] at hs hw
  obtain ⟨rest, hs', rfl, hw'⟩ := hs.tail.right.siblings hc
  rw [wordsOf_cons, wordsOf_append] at hw
  have hfirst := @dtbNextSibling_spec _ fuel _ _ _ _ _ hs' (by omega)
  rw [wordsOf_append] at hw'
  have hvisit := @visit_nodes _ fuel _ _ _ _ fuel hs'.right (by omega) (by
    have := rest.length_nodes (c + 4 * wordsOf k.tokens)
    have hpos := (Token.beginNode n.name).words_pos
    rw [wordsOf_append rest.tokens] at hw'
    omega)
  unfold dtbFindNext
  simp only [hfirst, Option.bind_eq_bind, Option.bind_some]
  have hbody : ∀ x ∈ rest.nodes (c + 4 * wordsOf k.tokens),
      strcmpNodename fuel m (dtbNodeName x.1) p i = some (if x.2.name == name then 0 else 1) := by
    intro x hx
    obtain ⟨vs, hv, -⟩ := hs'.right.node hx
    rw [Node.tokens_append] at hv
    have hz : ∀ y ∈ x.2.name, y ≠ 0 := hv.wf _ List.mem_cons_self
    rw [← matchesName_swapped hname]
    exact strcmpNodename_spec hv.nameString hp hz (fun y hy => (hname y hy).1) hlen
  rw [← findSome_ite]
  refine firstOf_eq hvisit ?_
  rw [List.forall₂_map_left_iff, List.forall₂_same]
  intro x hx
  rw [hbody x hx]
  cases h : x.2.name == name <;> rfl

/-- **`dtb_find_next` is right when the next sibling with the name has no unit address.** It finds
    the next sibling that the name names exactly if that one has the name and nothing more. -/
theorem dtbFindNext_right_iff (hb : Block m a t) (hf : (encode t.tokens).length ≤ fuel)
    (hn : t.Has a b n) (hc : n.childrenAt b = before ++ (c, k) :: after)
    (hp : Holds p i (name ++ [0])) (hname : ∀ x ∈ name, x ≠ 0 ∧ x ≠ AT) (hlen : name.length < fuel) :
    dtbFindNext m fuel c p i = some ((after.find? fun x => matchesName name x.2.name).map Prod.fst) ↔
      ∀ x, (after.find? fun x => matchesName name x.2.name) = some x → x.2.name = name := by
  have hsorted : (after.map Prod.fst).Pairwise (· < ·) := by
    have h := n.children.nodes_sorted (n.inner b)
    rw [show n.children.nodes (n.inner b) = before ++ (c, k) :: after from hc, List.map_append,
      List.map_cons, List.pairwise_append, List.pairwise_cons] at h
    exact h.2.1.2
  rw [dtbFindNext_spec hb hf hn hc hp hname hlen, Option.some.injEq,
    find_eq_find_iff hsorted fun x hx => matchesName_iff.mpr (.inl (beq_iff_eq.mp hx))]
  simp only [beq_iff_eq]

/-- In a tree with `a` and `b` below the root, `b` is found behind `a`. -/
theorem dtbFindNext_right_plain :
    dtbFindNext strayMemory 200 112 (cstr (chars ['b'])) 0 = some (some 124) := by
  have hblock : Block strayMemory 104 strayTree :=
    block_blob (by decide) (by decide) (by decide +kernel)
  refine (@dtbFindNext_right_iff strayMemory (cstr (chars ['b'])) 200 104 104 112 0 strayTree
    strayTree.root ⟨chars ['a'], [], .nil, 0⟩ [] [(124, ⟨chars ['b'], [], .nil, 0⟩)] (chars ['b'])
    hblock (by decide) .root rfl ⟨rfl, rfl, trivial⟩ (by decide +kernel) (by decide)).mpr ?_
  rintro x hx
  cases hx
  rfl

/-- **`b@10` is not found under the name `b`**, where `dtb_find` would find it. -/
theorem dtbFindNext_misses_unit :
    (sampleTree.root.childrenAt 104).map Prod.fst = [136, 172] ∧
      ((sampleTree.root.childrenAt 104).find? fun x => matchesName (chars ['b']) x.2.name).map
        Prod.fst = some 172 ∧
      dtbFindNext (memoryAt 64 (blob sampleTree [])) 200 136 (cstr (chars ['b'])) 0 =
        some none := by
  refine ⟨by decide, by decide, by decide +kernel⟩

end Next

/-! ## The node of a phandle -/

section Phandle

variable {m : Bytes} {fuel a b devicetree : Nat} {t : Tree} {n : Node} {us : List Token}
variable {names : Nat → List UInt8}

/-- The nodes below the top of a forest in document order, depth first. -/
def Forest.order : Forest → Nat → List (Nat × Node)
  | .nil, _ => []
  | .cons nops name props children endNops rest, a =>
    let n : Node := ⟨name, props, children, endNops⟩
    (a + 4 * nops, n) :: (children.order (n.inner (a + 4 * nops)) ++
      rest.order (a + 4 * nops + 4 * wordsOf n.tokens))

def Tree.order (t : Tree) (a : Nat) : List (Nat × Node) := t.children.order (t.root.inner a)

/-- The strings block: where the names of properties are, for `off_dt_strings`. -/
def stringsBlock (m : Bytes) (devicetree : Nat) : Nat :=
  devicetree + DTB_BYTESWAP32 (word m (devicetree + 12))

/-- The names of the properties of a tree are in the strings block, none has a unit address, and
    the properties called `phandle` are 4 bytes long. -/
structure Named (m : Bytes) (devicetree fuel : Nat) (names : Nat → List UInt8) (t : Tree) : Prop where
  holds : ∀ {b n p}, t.Has (structBlock m devicetree) b n → p ∈ n.props →
    Holds m (stringsBlock m devicetree + p.nameoff) (names p.nameoff ++ [0])
  plain : ∀ {b n p}, t.Has (structBlock m devicetree) b n → p ∈ n.props →
    ∀ x ∈ names p.nameoff, x ≠ 0 ∧ x ≠ AT
  short : ∀ {b n p}, t.Has (structBlock m devicetree) b n → p ∈ n.props →
    (names p.nameoff).length < fuel
  phandle : ∀ {b n p}, t.Has (structBlock m devicetree) b n → p ∈ n.props →
    names p.nameoff = chars namePhandle → p.value.length = 4

/-- Is this a property `phandle` with this big-endian value? -/
def Property.isPhandle (names : Nat → List UInt8) (v : Nat) (p : Property) : Bool :=
  names p.nameoff == chars namePhandle && p.value == be32 v

def Node.hasPhandle (names : Nat → List UInt8) (v : Nat) (n : Node) : Bool :=
  n.props.any (Property.isPhandle names v)

theorem exists_be32 {bs : List UInt8} (h : bs.length = 4) : ∃ w < 2 ^ 32, bs = be32 w := by
  match bs, h with
  | [x, y, z, w], _ =>
    have hx := x.toNat_lt
    have hy := y.toNat_lt
    have hz := z.toNat_lt
    have hw := w.toNat_lt
    refine ⟨2 ^ 24 * x.toNat + 2 ^ 16 * y.toNat + 2 ^ 8 * z.toNat + w.toNat, by omega, ?_⟩
    simp only [be32, List.cons.injEq, and_true, ← UInt8.toNat_inj, UInt8.toNat_ofNat']
    omega

theorem Holds.of_slice {bs : List UInt8} (h : m.slice a bs.length = bs) : Holds m a bs := by
  refine holds_of_get fun k hk => ?_
  have hget := congrArg (fun l => l[k]?) h
  simpa [Bytes.slice, hk] using hget

theorem dtbPropertyUint32_eq {q w : Nat} (hw : w < 2 ^ 32)
    (h : m.slice (dtbPropertyArray q) (be32 w).length = be32 w) : dtbPropertyUint32 m q = w := by
  have hword : word m (q + 12) = DTB_BYTESWAP32 w := (Holds.of_slice h).word
  rw [dtbPropertyUint32, hword, byteswap_byteswap hw]

theorem isPhandle_spec (hnames : Named m devicetree fuel names t) {q v : Nat} {p : Property}
    (hn : t.Has (structBlock m devicetree) b n) (hp : p ∈ n.props) (hq : ReadsAs m q p)
    (hv : v < 2 ^ 32) : isPhandle m fuel devicetree v q = some (p.isPhandle names v) := by
  obtain ⟨-, hvalue, hoff⟩ := hq
  have hname : dtbPropertyName m devicetree q = stringsBlock m devicetree + p.nameoff := by
    rw [dtbPropertyName, hoff, stringsBlock]
  have hplain := hnames.plain hn hp
  have hcmp : strcmpNodename fuel (cstr (chars namePhandle)) 0 m (dtbPropertyName m devicetree q) =
      some (if matchesName (chars namePhandle) (names p.nameoff) then 0 else 1) := by
    rw [hname]
    exact strcmpNodename_spec ⟨rfl, rfl, rfl, rfl, rfl, rfl, rfl, rfl, trivial⟩ (hnames.holds hn hp)
      (by decide +kernel) (fun x hx => (hplain x hx).1) (hnames.short hn hp)
  rw [matchesName_swapped hplain] at hcmp
  simp only [isPhandle, hcmp, Option.bind_eq_bind, Option.bind_some, Property.isPhandle]
  by_cases heq : names p.nameoff = chars namePhandle
  · obtain ⟨w, hw, hbe⟩ := exists_be32 (hnames.phandle hn hp heq)
    rw [hbe] at hvalue
    have hword := dtbPropertyUint32_eq hw hvalue
    have hinj : (w == v) = (be32 w == be32 v) := by
      rw [Bool.eq_iff_iff, beq_iff_eq, beq_iff_eq]
      refine ⟨fun h => h ▸ rfl, fun h => ?_⟩
      rw [← hword, dtbPropertyUint32_eq hv (h ▸ hvalue)]
    simp [heq, hword, hbe, hinj]
  · have hne : chars namePhandle ≠ names p.nameoff := fun h => heq h.symm
    simp [heq, hne]

theorem words_le_of_mem_nodes {f : Forest} : ∀ {a : Nat} {x : Nat × Node}, x ∈ f.nodes a →
    wordsOf x.2.tokens ≤ wordsOf f.tokens := by
  induction f with
  | nil => intro a x h; exact absurd h (by simp [Forest.nodes])
  | cons nops name props children endNops rest _ ih =>
    intro a x h
    rw [Forest.tokens_cons, wordsOf_append, wordsOf_append]
    rcases List.mem_cons.mp h with rfl | h
    · dsimp only
      omega
    · have := ih h
      omega

/-- The first node in document order: among the first top node that counts and what is below. -/
theorem Forest.find_order (P : Nat × Node → Bool) (f : Forest) : ∀ a,
    ((f.nodes a).findSome? fun x => if P x then some x.1
      else ((x.2.children.order (x.2.inner x.1)).find? P).map Prod.fst) =
    ((f.order a).find? P).map Prod.fst := by
  induction f with
  | nil => intro a; rfl
  | cons nops name props children endNops rest _ ih =>
    intro a
    simp only [Forest.nodes, Forest.order, List.findSome?_cons, List.find?_cons, List.find?_append,
      ih]
    cases P (a + 4 * nops, ⟨name, props, children, endNops⟩) with
    | true => rfl
    | false =>
      cases children.order (Node.inner ⟨name, props, children, endNops⟩ (a + 4 * nops)) |>.find? P
      · rfl
      · rfl

/-- **The recursion comes back with the first node below that has the phandle.** -/
theorem findByPhandleFrom_spec (hb : Block m (structBlock m devicetree) t)
    (hf : (encode t.tokens).length ≤ fuel) (hnames : Named m devicetree fuel names t) {v : Nat}
    (hv : v < 2 ^ 32) : ∀ {depth b : Nat} {n : Node}, t.Has (structBlock m devicetree) b n →
    wordsOf n.tokens ≤ depth → findByPhandleFrom m devicetree v depth fuel b =
      some (((n.children.order (n.inner b)).find? fun x => x.2.hasPhandle names v).map Prod.fst) := by
  intro depth
  induction depth with
  | zero =>
    intro b n _ h
    have := (Token.beginNode n.name).words_pos
    simp only [Node.tokens, wordsOf_cons] at h
    omega
  | succ depth ih =>
    intro b n hn hw
    rw [← Forest.find_order]
    refine foreach_firstOf (hb.foreach hf hn).2
      (List.forall₂_map_left_iff.mpr (List.forall₂_same.mpr fun x hx => ?_))
    have hx' := hn.child hx
    obtain ⟨us, hs, -⟩ := hb.stream.has hx'
    have hreads := readsAs_props (x.2.tokens_append us ▸ hs).tail
    have hmem := (List.forall₂_and_left (p := fun p => p ∈ x.2.props) _ _).mpr
      ⟨fun _ h => h, hreads.flip⟩
    have hprops : List.Forall₂ (fun q p => (do
        let r ← isPhandle m fuel devicetree v q
        pure (if r then some x.1 else none)) =
          some (if Property.isPhandle names v p then some x.1 else none))
        (x.2.propsAt x.1) x.2.props := by
      refine hmem.flip.imp fun q p hp => ?_
      rw [isPhandle_spec hnames hx' hp.1 hp.2 hv]
      rfl
    have hhit := foreach_firstOf (hb.foreach hf hx').1 hprops
    rw [findSome_ite] at hhit
    refine (Option.bind_assoc _ _ _).symm.trans ?_
    rw [hhit, Option.bind_some]
    have hhas : x.2.hasPhandle names v = (x.2.props.find? (Property.isPhandle names v)).isSome := by
      rw [List.isSome_find?]
      rfl
    rw [hhas]
    cases x.2.props.find? (Property.isPhandle names v) with
    | some p => rfl
    | none =>
      refine ih hx' ?_
      have hle := words_le_of_mem_nodes hx
      have hpos := (Token.beginNode n.name).words_pos
      simp only [Node.tokens, wordsOf_cons, wordsOf_append] at hw hle ⊢
      omega

/-- **`dtb_find_by_phandle` finds the first node in document order that has the phandle**, and
    null exactly when there is none below the root. -/
theorem dtbFindByPhandle_first (hb : Block m (structBlock m devicetree) t)
    (hf : (encode t.tokens).length ≤ fuel) (hnames : Named m devicetree fuel names t) {v : Nat}
    (hv : v < 2 ^ 32) :
    dtbFindByPhandle m fuel devicetree v =
      some (((t.order (structBlock m devicetree)).find? fun x => x.2.hasPhandle names v).map
        Prod.fst) ∧
    (dtbFindByPhandle m fuel devicetree v = some none ↔
      ∀ x ∈ t.order (structBlock m devicetree), x.2.hasPhandle names v = false) := by
  have hwords : 1 < fuel ∧ wordsOf t.root.tokens ≤ fuel := by
    have ht : wordsOf t.tokens = wordsOf t.root.tokens + wordsOf (nopTokens t.tailNops ++ [.fin]) :=
      wordsOf_append _ _
    have hroot := t.wordsOf_tokens
    rw [length_encode] at hf
    omega
  have hok : PathOk [] := ⟨by simp, by simp, by simp, by simp⟩
  have hroot : dtbFind m fuel devicetree (cstr [SLASH]) 0 = some (some (structBlock m devicetree)) :=
    dtbFind_spec hb rfl hok ⟨rfl, rfl, trivial⟩ hf hwords.1
  have hfind : dtbFindByPhandle m fuel devicetree v =
      some (((t.order (structBlock m devicetree)).find? fun x => x.2.hasPhandle names v).map
        Prod.fst) := by
    simp only [dtbFindByPhandle, hroot, Option.bind_eq_bind, Option.bind_some]
    exact findByPhandleFrom_spec hb hf hnames hv .root hwords.2
  refine ⟨hfind, ?_⟩
  rw [hfind, Option.some.injEq, Option.map_eq_none_iff, List.find?_eq_none]
  simp only [Bool.not_eq_true]

def phandleTree : Tree where
  props := []
  children :=
    .cons 0 (chars ['a']) [⟨0, 0, be32 7⟩] (.cons 0 (chars ['b']) [⟨0, 0, be32 9⟩] .nil 0 .nil) 0 .nil
  endNops := 0
  tailNops := 0

def phandleMemory : Bytes := memoryAt 64 (blob phandleTree (chars namePhandle ++ [0]))

/-- The node with phandle 9 is found in it. -/
theorem dtbFindByPhandle_below : dtbFindByPhandle phandleMemory 200 64 9 = some (some 136) := by
  have hblock : Block phandleMemory (structBlock phandleMemory 64) phandleTree :=
    block_blob (by decide) (by decide) (by decide +kernel)
  have hprops : ∀ {b n p}, phandleTree.Has (structBlock phandleMemory 64) b n → p ∈ n.props →
      p.nameoff = 0 ∧ p.value.length = 4 := by
    suffices h : ∀ {b n}, phandleTree.Has (structBlock phandleMemory 64) b n →
        ∃ c ∈ phandleTree.root :: (phandleTree.order 104).map Prod.snd, c = n by
      intro b n p hn hp
      obtain ⟨c, hc, rfl⟩ := h hn
      simp only [phandleTree, Tree.root, Tree.order, Forest.order, List.map_cons, List.map_nil,
        List.append_nil, List.mem_cons, List.not_mem_nil, or_false] at hc
      rcases hc with rfl | rfl | rfl
      · exact absurd hp (by simp)
      all_goals
        obtain rfl := List.mem_singleton.mp hp
        exact ⟨rfl, rfl⟩
    intro b n hn
    induction hn with
    | root => exact ⟨_, List.mem_cons_self, rfl⟩
    | child _ hc ih =>
      obtain ⟨c, hmem, rfl⟩ := ih
      simp only [phandleTree, Tree.root, Tree.order, Forest.order, List.map_cons, List.map_nil,
        List.append_nil, List.mem_cons, List.not_mem_nil, or_false] at hmem ⊢
      rcases hmem with rfl | rfl | rfl <;>
        simp_all [Node.childrenAt, Forest.nodes]
  have hnames : Named phandleMemory 64 200 (fun _ => chars namePhandle) phandleTree := by
    refine ⟨fun hn hp => ?_, fun _ _ => by decide +kernel, fun _ _ => by decide,
      fun hn hp _ => (hprops hn hp).2⟩
    rw [(hprops hn hp).1]
    exact ⟨rfl, rfl, rfl, rfl, rfl, rfl, rfl, rfl, trivial⟩
  exact (dtbFindByPhandle_first hblock (by decide) hnames (by decide)).1.trans (by decide +kernel)

end Phandle

end ZeptOS.Dtb
