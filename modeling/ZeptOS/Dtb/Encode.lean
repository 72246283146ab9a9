import Mathlib.Data.Nat.Bitwise
import ZeptOS.Dtb.Model

/-!
# Flattened device trees

What the reader is given: the structure block of a flattened device tree, as a sequence
of tokens, and the tree such a sequence stands for.

`Token` is one token with what belongs to it, and `Token.bytes` its bytes: big-endian
words, with names and values padded to a word by zeros. `Stream m a ts` says that the
memory holds the tokens `ts` from the aligned address `a` on; the facts about single
words that the reader relies on are all read off a `Stream` here, and nowhere else. The
one that carries the reader is `Inert`: no word of a name or of the end of a value looks
like a token.

A `Forest` is a list of sibling nodes. It carries the numbers of `DTB_NOP` tokens at
every place between two tokens, so that a statement about all forests is one about all
trees and all ways to lay them out.

Blobs that are no such encoding are not covered. The reader checks nothing of what the
firmware hands over, and where it would end on them depends on the memory behind.
-/

namespace ZeptOS.Dtb

open Lib

variable {a k n : Nat} {m : Bytes} {ts : List Token}

/-! ## Words -/

def be32 (n : Nat) : List UInt8 :=
  [UInt8.ofNat (n / 2 ^ 24), UInt8.ofNat (n / 2 ^ 16), UInt8.ofNat (n / 2 ^ 8), UInt8.ofNat n]

theorem and_byte (x k : Nat) : x &&& (255 * 2 ^ k) = x / 2 ^ k % 256 * 2 ^ k := by
  apply Nat.eq_of_testBit_eq
  intro i
  rw [show (255 : Nat) = 2 ^ 8 - 1 from rfl, show (256 : Nat) = 2 ^ 8 from rfl]
  simp only [Nat.testBit_and, Nat.testBit_mul_two_pow, Nat.testBit_mod_two_pow,
    Nat.testBit_div_two_pow, Nat.testBit_two_pow_sub_one]
  by_cases h : k ≤ i
  · simp [h, Bool.and_comm]
  · simp [h]

theorem byteswap_eq (n : Nat) : DTB_BYTESWAP32 n =
    n / 2 ^ 24 % 256 + 2 ^ 8 * (n / 2 ^ 16 % 256) + 2 ^ 16 * (n / 2 ^ 8 % 256)
      + 2 ^ 24 * (n % 256) := by
  have h0 : (n >>> 24) &&& 0xff = n / 2 ^ 24 % 256 := by
    have := and_byte (n >>> 24) 0
    simpa [Nat.shiftRight_eq_div_pow] using this
  have h1 : (n <<< 8) &&& 0xff0000 = 2 ^ 16 * (n / 2 ^ 8 % 256) := by
    have := and_byte (n <<< 8) 16
    rw [Nat.shiftLeft_eq] at *
    rw [show (0xff0000 : Nat) = 255 * 2 ^ 16 from rfl, this]
    omega
  have h2 : (n >>> 8) &&& 0xff00 = 2 ^ 8 * (n / 2 ^ 16 % 256) := by
    have := and_byte (n >>> 8) 8
    rw [Nat.shiftRight_eq_div_pow] at *
    rw [show (0xff00 : Nat) = 255 * 2 ^ 8 from rfl, this]
    omega
  have h3 : (n <<< 24) &&& 0xff000000 = 2 ^ 24 * (n % 256) := by
    have := and_byte (n <<< 24) 24
    rw [Nat.shiftLeft_eq] at *
    rw [show (0xff000000 : Nat) = 255 * 2 ^ 24 from rfl, this]
    omega
  have hr : ∀ a x y z : Nat, a ||| x ||| y ||| z = z ||| (x ||| (y ||| a)) := by
    intro a x y z
    rw [Nat.or_comm _ z, Nat.or_comm a x, Nat.or_assoc x a y, Nat.or_comm a y]
  unfold DTB_BYTESWAP32
  rw [h0, h1, h2, h3, hr]
  -- no two of the four bytes overlap, so that each `|||` is a sum, from the lowest byte up
  have e1 := Nat.two_pow_add_eq_or_of_lt (i := 8) (b := n / 2 ^ 24 % 256) (by omega)
    (n / 2 ^ 16 % 256)
  rw [← e1]
  have e2 := Nat.two_pow_add_eq_or_of_lt (i := 16)
    (b := 2 ^ 8 * (n / 2 ^ 16 % 256) + n / 2 ^ 24 % 256) (by omega) (n / 2 ^ 8 % 256)
  rw [← e2]
  have e3 := Nat.two_pow_add_eq_or_of_lt (i := 24)
    (b := 2 ^ 16 * (n / 2 ^ 8 % 256) + (2 ^ 8 * (n / 2 ^ 16 % 256) + n / 2 ^ 24 % 256)) (by omega)
    (n % 256)
  rw [← e3]
  omega

theorem byteswap_bytes {b c d : Nat} (ha : a < 256) (hb : b < 256) (hc : c < 256) (hd : d < 256) :
    DTB_BYTESWAP32 (a + 2 ^ 8 * b + 2 ^ 16 * c + 2 ^ 24 * d) =
      d + 2 ^ 8 * c + 2 ^ 16 * b + 2 ^ 24 * a := by
  have h1 : (a + 2 ^ 8 * b + 2 ^ 16 * c + 2 ^ 24 * d) / 2 ^ 24 % 256 = d := by omega
  have h2 : (a + 2 ^ 8 * b + 2 ^ 16 * c + 2 ^ 24 * d) / 2 ^ 16 % 256 = c := by omega
  have h3 : (a + 2 ^ 8 * b + 2 ^ 16 * c + 2 ^ 24 * d) / 2 ^ 8 % 256 = b := by omega
  have h4 : (a + 2 ^ 8 * b + 2 ^ 16 * c + 2 ^ 24 * d) % 256 = a := by omega
  rw [byteswap_eq, h1, h2, h3, h4]

theorem byteswap_byteswap (h : n < 2 ^ 32) : DTB_BYTESWAP32 (DTB_BYTESWAP32 n) = n := by
  rw [byteswap_eq n, byteswap_bytes (Nat.mod_lt _ (by omega)) (Nat.mod_lt _ (by omega))
    (Nat.mod_lt _ (by omega)) (Nat.mod_lt _ (by omega))]
  omega

theorem word_eq (m : Bytes) (a : Nat) : word m a =
    (m a).toNat + 2 ^ 8 * (m (a + 1)).toNat + 2 ^ 16 * (m (a + 2)).toNat
      + 2 ^ 24 * (m (a + 3)).toNat := by
  simp only [word, Bytes.ld, Nat.add_assoc, Nat.reduceAdd]
  omega

/-! ## Bytes in memory -/

def Holds (m : Bytes) : Nat → List UInt8 → Prop
  | _, [] => True
  | a, b :: bs => m a = b ∧ Holds m (a + 1) bs

variable {bs : List UInt8}

theorem holds_append {cs : List UInt8} : ∀ {a : Nat},
    Holds m a (bs ++ cs) ↔ Holds m a bs ∧ Holds m (a + bs.length) cs := by
  induction bs with
  | nil => intro a; simp [Holds]
  | cons b bs ih =>
    intro a
    simp only [List.cons_append, Holds, ih, List.length_cons, and_assoc]
    rw [show a + 1 + bs.length = a + (bs.length + 1) by omega]

theorem Holds.get : ∀ {a k : Nat} (_ : Holds m a bs) (hk : k < bs.length), m (a + k) = bs[k] := by
  induction bs with
  | nil => intro a k _ hk; exact absurd hk (by simp)
  | cons b bs ih =>
    intro a k h hk
    cases k with
    | zero => exact h.1
    | succ k =>
      have := ih h.2 (by simpa using hk)
      rw [show a + (k + 1) = a + 1 + k by omega, this]
      rfl

theorem holds_of_get : ∀ {a : Nat},
    (∀ k (hk : k < bs.length), m (a + k) = bs[k]) → Holds m a bs := by
  induction bs with
  | nil => intro a _; trivial
  | cons b bs ih =>
    intro a h
    refine ⟨h 0 (by simp), ih fun k hk => ?_⟩
    have := h (k + 1) (by simpa using hk)
    rw [show a + 1 + k = a + (k + 1) by omega, this]
    rfl

/-- The memory that holds the bytes `bs` from `a` on, and nothing else. -/
def memoryAt (a : Nat) (bs : List UInt8) : Bytes := fun k => if a ≤ k then bs.getD (k - a) 0 else 0

theorem holds_memoryAt (a : Nat) (bs : List UInt8) : Holds (memoryAt a bs) a bs := by
  refine holds_of_get fun k hk => ?_
  simp [memoryAt, hk]

theorem Holds.slice (h : Holds m a bs) : m.slice a bs.length = bs := by
  apply List.ext_getElem
  · simp [Bytes.slice]
  · intro k h1 h2
    simp only [Bytes.slice, List.getElem_map, List.getElem_range]
    exact h.get h2

theorem Holds.word (h : Holds m a (be32 n)) : Dtb.word m a = DTB_BYTESWAP32 n := by
  obtain ⟨h0, h1, h2, h3, -⟩ := h
  rw [word_eq, byteswap_eq, h0, h1, h2, h3]
  simp only [UInt8.toNat_ofNat']

/-! ## Tokens -/

/-- A token, with the name or the value that belongs to it. -/
inductive Token where
  | beginNode (name : List UInt8)
  | endNode
  | prop (nameoff : Nat) (value : List UInt8)
  | nop
  | fin

namespace Token

def bytes : Token → List UInt8
  | beginNode name => be32 0x1 ++ (name ++ List.replicate (4 - name.length % 4) 0)
  | endNode => be32 0x2
  | prop nameoff value =>
    be32 0x3 ++ (be32 value.length ++ (be32 nameoff ++
      (value ++ List.replicate ((4 - value.length % 4) % 4) 0)))
  | nop => be32 0x4
  | fin => be32 0x9

def words : Token → Nat
  | beginNode name => name.length / 4 + 2
  | prop _ value => (value.length + 3) / 4 + 3
  | _ => 1

def head : Token → Nat
  | beginNode _ => DTB_BEGIN_NODE
  | endNode => DTB_END_NODE
  | prop _ _ => DTB_PROP
  | nop => DTB_NOP
  | fin => DTB_END

/-- Names end at their first 0, and lengths are 32-bit words. -/
def Wf : Token → Prop
  | beginNode name => ∀ c ∈ name, c ≠ 0
  | prop nameoff value => nameoff < 2 ^ 32 ∧ value.length + 3 < 2 ^ 32
  | _ => True

instance : DecidablePred Wf := fun t =>
  match t with
  | beginNode name => inferInstanceAs (Decidable (∀ c ∈ name, c ≠ 0))
  | endNode => .isTrue trivial
  | prop nameoff value => inferInstanceAs (Decidable (nameoff < 2 ^ 32 ∧ value.length + 3 < 2 ^ 32))
  | nop => .isTrue trivial
  | fin => .isTrue trivial

theorem length_bytes (t : Token) : t.bytes.length = 4 * t.words := by
  cases t with
  | beginNode name => simp [bytes, words, be32]; omega
  | prop nameoff value => simp [bytes, words, be32]; omega
  | _ => rfl

theorem words_pos (t : Token) : 0 < t.words := by
  cases t <;> simp [words]

end Token

theorem token_values : DTB_BEGIN_NODE = 0x01000000 ∧ DTB_END_NODE = 0x02000000 ∧
    DTB_PROP = 0x03000000 ∧ DTB_NOP = 0x04000000 ∧ DTB_END = 0x09000000 := by decide

/-- A word that is no token: its first byte is not 0, or its last one is. -/
def Inert (w : Nat) : Prop := w % 256 ≠ 0 ∨ w < 2 ^ 24

theorem Inert.ne {w : Nat} (h : Inert w) : w ≠ DTB_BEGIN_NODE ∧ w ≠ DTB_END_NODE ∧ w ≠ DTB_PROP ∧
    w ≠ DTB_NOP ∧ w ≠ DTB_END := by
  obtain ⟨h1, h2, h3, h4, h5⟩ := token_values
  unfold Inert at h
  omega

def wordsOf : List Token → Nat
  | [] => 0
  | t :: ts => t.words + wordsOf ts

@[simp] theorem wordsOf_nil : wordsOf [] = 0 := rfl

@[simp] theorem wordsOf_cons (t : Token) (ts : List Token) :
    wordsOf (t :: ts) = t.words + wordsOf ts := rfl

@[simp] theorem wordsOf_append (ts us : List Token) :
    wordsOf (ts ++ us) = wordsOf ts + wordsOf us := by
  induction ts with
  | nil => simp
  | cons t ts ih => simp [ih, Nat.add_assoc]

def encode (ts : List Token) : List UInt8 := ts.flatMap Token.bytes

theorem length_encode (ts : List Token) : (encode ts).length = 4 * wordsOf ts := by
  induction ts with
  | nil => rfl
  | cons t ts ih =>
    have hc : encode (t :: ts) = t.bytes ++ encode ts := rfl
    rw [hc, List.length_append, ih, t.length_bytes, wordsOf_cons]
    omega

/-- **The memory holds these tokens** from an aligned address on. -/
structure Stream (m : Bytes) (a : Nat) (ts : List Token) : Prop where
  holds : Holds m a (encode ts)
  aligned : a % 4 = 0
  wf : ∀ t ∈ ts, t.Wf

namespace Stream

variable {t : Token} {us : List Token}

theorem left (h : Stream m a (ts ++ us)) : Stream m a ts := by
  have he := h.holds
  rw [encode, List.flatMap_append, holds_append] at he
  exact ⟨he.1, h.aligned, fun t ht => h.wf t (List.mem_append_left _ ht)⟩

theorem right (h : Stream m a (ts ++ us)) : Stream m (a + 4 * wordsOf ts) us := by
  have he := h.holds
  rw [encode, List.flatMap_append, holds_append] at he
  have hl := length_encode ts
  rw [encode] at hl
  have ha := h.aligned
  exact ⟨hl ▸ he.2, by omega, fun t ht => h.wf t (List.mem_append_right _ ht)⟩

theorem tail (h : Stream m a (t :: ts)) : Stream m (a + 4 * t.words) ts := by
  have := @right _ _ [t] _ h
  simpa using this

theorem bytes (h : Stream m a (t :: ts)) : Holds m a t.bytes := by
  have := (@left _ _ [t] _ h).holds
  simpa [encode] using this

theorem head (h : Stream m a (t :: ts)) : word m a = t.head := by
  have hb := h.bytes
  cases t with
  | beginNode name => exact (holds_append.mp hb).1.word
  | prop nameoff value => exact (holds_append.mp hb).1.word
  | endNode => exact Holds.word hb
  | nop => exact Holds.word hb
  | fin => exact Holds.word hb

/-! ## Names -/

variable {name : List UInt8}

theorem nameBytes (h : Stream m a (.beginNode name :: ts)) :
    Holds m (a + 4) (name ++ List.replicate (4 - name.length % 4) 0) :=
  (holds_append.mp h.bytes).2

theorem nameString (h : Stream m a (.beginNode name :: ts)) : Holds m (a + 4) (name ++ [0]) := by
  have hname := h.nameBytes
  rw [show 4 - name.length % 4 = 1 + (3 - name.length % 4) by omega,
    ← List.replicate_append_replicate, ← List.append_assoc] at hname
  exact (holds_append.mp hname).1

theorem name_get (h : Stream m a (.beginNode name :: ts)) (hk : k < name.length) :
    m (a + 4 + k) = name[k] := (holds_append.mp h.nameBytes).1.get hk

theorem name_ne_zero (h : Stream m a (.beginNode name :: ts)) (hk : k < name.length) :
    m (a + 4 + k) ≠ 0 := by
  rw [h.name_get hk]
  exact h.wf (.beginNode name) List.mem_cons_self _ (List.getElem_mem hk)

theorem name_pad (h : Stream m a (.beginNode name :: ts)) (hk : name.length ≤ k)
    (hk' : k < 4 * (name.length / 4 + 1)) : m (a + 4 + k) = 0 := by
  have hz := (holds_append.mp h.nameBytes).2.get (k := k - name.length) (by simp; omega)
  rw [show a + 4 + name.length + (k - name.length) = a + 4 + k by omega] at hz
  rw [hz]
  simp

/-- **No word of a name is a token.** A word that holds a byte of the name starts with
    one, and the word that holds none is 0. -/
theorem name_inert (h : Stream m a (.beginNode name :: ts)) {i : Nat}
    (hi : i < name.length / 4 + 1) : Inert (word m (a + 4 + 4 * i)) := by
  by_cases hk : 4 * i < name.length
  · left
    have h0 := h.name_ne_zero hk
    have hne : (m (a + 4 + 4 * i)).toNat ≠ 0 := fun h => h0 (UInt8.toNat_inj.mp h)
    have hlt := (m (a + 4 + 4 * i)).toNat_lt
    rw [word_eq]
    omega
  · right
    have hp : ∀ j < 4, m (a + 4 + 4 * i + j) = 0 := fun j hj => by
      have := h.name_pad (k := 4 * i + j) (by omega) (by omega)
      rwa [show a + 4 + (4 * i + j) = a + 4 + 4 * i + j by omega] at this
    have h0 := hp 0 (by omega)
    rw [word_eq, hp 1 (by omega), hp 2 (by omega), hp 3 (by omega)]
    rw [Nat.add_zero] at h0
    rw [h0]
    decide

/-! ## Properties -/

variable {nameoff : Nat} {value : List UInt8}

theorem prop_bytes (h : Stream m a (.prop nameoff value :: ts)) :
    Holds m (a + 4) (be32 value.length) ∧ Holds m (a + 8) (be32 nameoff) ∧
      Holds m (a + 12) (value ++ List.replicate ((4 - value.length % 4) % 4) 0) := by
  have h1 := (holds_append.mp h.bytes).2
  have h2 := (holds_append.mp h1).2
  exact ⟨(holds_append.mp h1).1, (holds_append.mp h2).1, (holds_append.mp h2).2⟩

theorem prop_wf (h : Stream m a (.prop nameoff value :: ts)) :
    nameoff < 2 ^ 32 ∧ value.length + 3 < 2 ^ 32 := h.wf (.prop nameoff value) List.mem_cons_self

theorem prop_length (h : Stream m a (.prop nameoff value :: ts)) :
    dtbPropertyLength m a = value.length := by
  rw [dtbPropertyLength, h.prop_bytes.1.word, byteswap_byteswap]
  have := h.prop_wf
  omega

theorem prop_nameoff (h : Stream m a (.prop nameoff value :: ts)) :
    DTB_BYTESWAP32 (word m (a + 8)) = nameoff := by
  rw [h.prop_bytes.2.1.word, byteswap_byteswap h.prop_wf.1]

theorem prop_value (h : Stream m a (.prop nameoff value :: ts)) :
    m.slice (dtbPropertyArray a) value.length = value :=
  (holds_append.mp h.prop_bytes.2.2).1.slice

theorem prop_inert (h : Stream m a (.prop nameoff value :: ts)) (hl : value.length % 4 ≠ 0) :
    Inert (word m (a + 12 + 4 * (value.length / 4))) := by
  right
  have hz := (holds_append.mp h.prop_bytes.2.2).2.get (k := 3 - value.length % 4) (by simp; omega)
  rw [show a + 12 + value.length + (3 - value.length % 4) =
    a + 12 + 4 * (value.length / 4) + 3 by omega] at hz
  have h0 : m (a + 12 + 4 * (value.length / 4) + 3) = 0 := by
    rw [hz]
    simp
  rw [word_eq, h0]
  have := (m (a + 12 + 4 * (value.length / 4))).toNat_lt
  have := (m (a + 12 + 4 * (value.length / 4) + 1)).toNat_lt
  have := (m (a + 12 + 4 * (value.length / 4) + 2)).toNat_lt
  have hz : (0 : UInt8).toNat = 0 := rfl
  omega

end Stream

theorem valueWords_eq {len : Nat} (h : len + 3 < 2 ^ 32) : valueWords len = (len + 3) / 4 := by
  unfold valueWords
  split <;> omega

/-! ## Trees -/

structure Property where
  nops : Nat
  nameoff : Nat
  value : List UInt8

/-- Sibling nodes. Each comes with the `DTB_NOP` tokens before its first and before its
    last token. -/
inductive Forest where
  | nil
  | cons (nops : Nat) (name : List UInt8) (props : List Property) (children : Forest)
      (endNops : Nat) (rest : Forest)

structure Node where
  name : List UInt8
  props : List Property
  children : Forest
  endNops : Nat

def nopTokens (n : Nat) : List Token := List.replicate n .nop

def Property.tokens (p : Property) : List Token := nopTokens p.nops ++ [.prop p.nameoff p.value]

def propTokens (ps : List Property) : List Token := ps.flatMap Property.tokens

def Forest.tokens : Forest → List Token
  | nil => []
  | cons nops name props children endNops rest =>
    nopTokens nops ++ .beginNode name :: (propTokens props ++ (children.tokens ++
      (nopTokens endNops ++ .endNode :: rest.tokens)))

/-- The tokens of a node from its first one to the one that closes it. -/
def Node.tokens (n : Node) : List Token :=
  .beginNode n.name :: (propTokens n.props ++ (n.children.tokens ++
    (nopTokens n.endNops ++ [.endNode])))

/-- A whole tree: the properties and children of the nameless root, and the `DTB_NOP`
    tokens before `DTB_END`. -/
structure Tree where
  props : List Property
  children : Forest
  endNops : Nat
  tailNops : Nat

def Tree.root (t : Tree) : Node := ⟨[], t.props, t.children, t.endNops⟩

def Tree.tokens (t : Tree) : List Token := t.root.tokens ++ (nopTokens t.tailNops ++ [.fin])

/-- The nodes of a forest that starts at `a`, each with the address of its first token. -/
def Forest.nodes : Forest → Nat → List (Nat × Node)
  | nil, _ => []
  | cons nops name props children endNops rest, a =>
    (a + 4 * nops, ⟨name, props, children, endNops⟩) ::
      rest.nodes (a + 4 * nops + 4 * wordsOf (Node.tokens ⟨name, props, children, endNops⟩))

def Node.inner (n : Node) (a : Nat) : Nat :=
  a + 4 * (Token.beginNode n.name).words + 4 * wordsOf (propTokens n.props)

def Node.childrenAt (n : Node) (a : Nat) : List (Nat × Node) := n.children.nodes (n.inner a)

def propsFrom : List Property → Nat → List Nat
  | [], _ => []
  | p :: ps, a => (a + 4 * p.nops) :: propsFrom ps (a + 4 * wordsOf p.tokens)

def Node.propsAt (n : Node) (a : Nat) : List Nat :=
  propsFrom n.props (a + 4 * (Token.beginNode n.name).words)

inductive Tree.Has (t : Tree) (a : Nat) : Nat → Node → Prop
  | root : Has t a a t.root
  | child {b b' : Nat} {n n' : Node} (h : Has t a b n) (hc : (b', n') ∈ n.childrenAt b) :
      Has t a b' n'

@[simp] theorem wordsOf_nopTokens (n : Nat) : wordsOf (nopTokens n) = n := by
  induction n with
  | zero => rfl
  | succ n ih =>
    have hs : nopTokens (n + 1) = .nop :: nopTokens n := rfl
    rw [hs, wordsOf_cons, ih]
    simp [Token.words]
    omega

theorem propTokens_cons (p : Property) (ps : List Property) (us : List Token) :
    propTokens (p :: ps) ++ us =
      nopTokens p.nops ++ .prop p.nameoff p.value :: (propTokens ps ++ us) := by
  simp [propTokens, Property.tokens]

theorem wordsOf_propTokens_cons (p : Property) (ps : List Property) :
    wordsOf (propTokens (p :: ps)) =
      p.nops + (Token.prop p.nameoff p.value).words + wordsOf (propTokens ps) := by
  simp [propTokens, Property.tokens, Nat.add_assoc]

theorem Property.wordsOf_tokens (p : Property) :
    wordsOf p.tokens = p.nops + (Token.prop p.nameoff p.value).words := by
  simp [Property.tokens]

theorem Node.tokens_append (n : Node) (us : List Token) :
    n.tokens ++ us = .beginNode n.name :: (propTokens n.props ++ (n.children.tokens ++
      (nopTokens n.endNops ++ .endNode :: us))) := by
  simp [Node.tokens]

theorem Forest.tokens_cons (nops : Nat) (name : List UInt8) (props : List Property)
    (children : Forest) (endNops : Nat) (rest : Forest) :
    (Forest.cons nops name props children endNops rest).tokens =
      nopTokens nops ++ (Node.tokens ⟨name, props, children, endNops⟩ ++ rest.tokens) := by
  simp [Forest.tokens, Node.tokens]

theorem Stream.node {f : Forest} : ∀ {a b : Nat} {n : Node} {ts : List Token},
    Stream m a (f.tokens ++ ts) → (b, n) ∈ f.nodes a → ∃ us, Stream m b (n.tokens ++ us) ∧
      wordsOf (n.tokens ++ us) ≤ wordsOf (f.tokens ++ ts) := by
  induction f with
  | nil => intro a b n ts _ hn; exact absurd hn (by simp [Forest.nodes])
  | cons nops name props children endNops rest _ ih =>
    intro a b n ts h hn
    rw [Forest.tokens_cons, List.append_assoc, List.append_assoc] at h ⊢
    have h1 := h.right
    rw [wordsOf_nopTokens] at h1
    simp only [Forest.nodes, List.mem_cons] at hn
    rcases hn with he | hn
    · cases he
      refine ⟨rest.tokens ++ ts, h1, ?_⟩
      rw [wordsOf_append (nopTokens nops)]
      omega
    · obtain ⟨us, hs, hw⟩ := ih h1.right hn
      refine ⟨us, hs, hw.trans ?_⟩
      rw [wordsOf_append (nopTokens nops), wordsOf_append (Node.tokens _)]
      omega

theorem Stream.has {t : Tree} {b : Nat} {n : Node} (h : Stream m a t.tokens) (hn : t.Has a b n) :
    ∃ us, Stream m b (n.tokens ++ us) ∧ wordsOf (n.tokens ++ us) ≤ wordsOf t.tokens := by
  induction hn with
  | root => exact ⟨_, h, le_rfl⟩
  | child _ hc ih =>
    obtain ⟨us, hs, hw⟩ := ih
    rw [Node.tokens_append] at hs hw
    obtain ⟨vs, hv, hvw⟩ := Stream.node hs.tail.right hc
    refine ⟨vs, hv, hvw.trans (le_trans ?_ hw)⟩
    rw [wordsOf_cons, wordsOf_append (propTokens _)]
    omega

/-- **A structure block in memory**: the tokens of a tree at an aligned address. Names
    are C strings, and offsets and the size of the block are 32-bit words. -/
structure Block (m : Bytes) (a : Nat) (t : Tree) : Prop where
  holds : Holds m a (encode t.tokens)
  aligned : a % 4 = 0
  size : (encode t.tokens).length < 2 ^ 32
  names : ∀ name, Token.beginNode name ∈ t.tokens → ∀ c ∈ name, c ≠ 0
  offsets : ∀ nameoff value, Token.prop nameoff value ∈ t.tokens → nameoff < 2 ^ 32

theorem words_le_of_mem {tok : Token} (h : tok ∈ ts) : tok.words ≤ wordsOf ts := by
  induction ts with
  | nil => exact absurd h (by simp)
  | cons u us ih =>
    rw [wordsOf_cons]
    rcases List.mem_cons.mp h with rfl | h
    · omega
    · have := ih h
      omega

theorem Block.stream {t : Tree} (h : Block m a t) : Stream m a t.tokens := by
  refine ⟨h.holds, h.aligned, fun tok ht => ?_⟩
  cases tok with
  | beginNode name => exact h.names name ht
  | prop nameoff value =>
    have hw := words_le_of_mem ht
    have hs := h.size
    rw [length_encode] at hs
    simp only [Token.words] at hw
    exact ⟨h.offsets nameoff value ht, by omega⟩
  | _ => trivial

/-! ## Blobs -/

/-- A flattened device tree: the header, the structure block and the names of the
    properties. -/
def blob (t : Tree) (strings : List UInt8) : List UInt8 :=
  let size := (encode t.tokens).length
  be32 0xd00dfeed ++ (be32 (40 + size + strings.length) ++ (be32 40 ++ (be32 (40 + size) ++
    (be32 40 ++ (be32 17 ++ (be32 16 ++ (be32 0 ++ (be32 strings.length ++ (be32 size ++
      (encode t.tokens ++ strings))))))))))

theorem block_blob {t : Tree} {strings : List UInt8} (ha : a % 4 = 0)
    (hsize : (encode t.tokens).length < 2 ^ 32) (hwf : ∀ tok ∈ t.tokens, tok.Wf) :
    Block (memoryAt a (blob t strings)) (structBlock (memoryAt a (blob t strings)) a) t := by
  have h := holds_memoryAt a (blob t strings)
  simp only [blob, holds_append] at h
  obtain ⟨-, -, hoff, -, -, -, -, -, -, -, hblock, -⟩ := h
  have hs : structBlock (memoryAt a (blob t strings)) a = a + 40 := by
    rw [structBlock, ← byteswap_byteswap (show 40 < 2 ^ 32 by decide)]
    exact congrArg (fun w => a + DTB_BYTESWAP32 w) hoff.word
  rw [hs]
  exact
    { holds := hblock
      aligned := by omega
      size := hsize
      names := fun name hn => hwf _ hn
      offsets := fun nameoff value hp => (hwf _ hp).1 }

end ZeptOS.Dtb
