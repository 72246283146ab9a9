import ZeptOS.Lib.Bytes
import ZeptOS.Lib.Loop

/-!
# The device tree reader of `kernel/dtb.c`

The blob the firmware hands over is a memory of bytes `m`; a `dtb_u32 *` is a byte
address, and `*p` the little-endian word there, because the machine is little-endian and
the reader compares with swapped constants instead of swapping what it reads. A null
pointer is `none`.

Every loop of the reader ends where the data says so. Each function therefore takes the
number of rounds its loops may make, and has no answer (`none`) if one of them would
make more. A write outside `parsed_path` has no answer either.
-/

namespace ZeptOS.Dtb

open Lib

/-! ## `dtb.h` -/

def DTB_BYTESWAP32 (num : Nat) : Nat :=
  ((num >>> 24) &&& 0xff) ||| ((num <<< 8) &&& 0xff0000) |||
    ((num >>> 8) &&& 0xff00) ||| ((num <<< 24) &&& 0xff000000)

def DTB_BYTESWAP64 (num : Nat) : Nat :=
  (DTB_BYTESWAP32 num <<< 32) ||| DTB_BYTESWAP32 (num >>> 32)

def DTB_BEGIN_NODE : Nat := DTB_BYTESWAP32 0x1
def DTB_END_NODE : Nat := DTB_BYTESWAP32 0x2
def DTB_PROP : Nat := DTB_BYTESWAP32 0x3
def DTB_NOP : Nat := DTB_BYTESWAP32 0x4
def DTB_END : Nat := DTB_BYTESWAP32 0x9

/-- `*token` -/
def word (m : Bytes) (token : Nat) : Nat := m.ld token 4

def cstr (s : List UInt8) : Bytes := fun k => s.getD k 0

def chars (s : List Char) : List UInt8 := s.map fun c => UInt8.ofNat c.toNat

abbrev SLASH : UInt8 := 0x2f
abbrev AT : UInt8 := 0x40

/-! ## Strings -/

def cmpRound (p m : Bytes) (s : Nat × Nat) : Option ((Nat × Nat) ⊕ (Nat × Nat)) :=
  if p s.1 = 0 ∨ m s.2 = 0 then some (.inr s)
  else if p s.1 ≠ m s.2 then some (.inr s)
  else some (.inl (s.1 + 1, s.2 + 1))

def strcmpNodename (fuel : Nat) (p : Bytes) (pathpart : Nat) (m : Bytes) (nodename : Nat) :
    Option Nat := do
  let (pathpart, nodename) ← loop (cmpRound p m) fuel (pathpart, nodename)
  if p pathpart = 0 ∧ m nodename = 0 then pure 0
  else if p pathpart = 0 ∧ m nodename = AT then pure 0
  else pure 1

/-! ## Tokens -/

/-- The number of words the value of a property takes, as `dtb_next_token` and
    `dtb_next_sibling` round it. `len` and the sum are of type `dtb_u32`. -/
def valueWords (len : Nat) : Nat :=
  if len % 4 = 0 then len / 4 else (len + (4 - len % 4)) % 2 ^ 32 / 4

/-- `while (*tokenchar != '\0') tokenchar++` -/
def charRound (m : Bytes) (tokenchar : Nat) : Option (Nat ⊕ Nat) :=
  if m tokenchar ≠ 0 then some (.inl (tokenchar + 1)) else some (.inr tokenchar)

/-- `while (*token == 0) token++` -/
def zeroRound (m : Bytes) (token : Nat) : Option (Nat ⊕ Nat) :=
  if word m token = 0 then some (.inl (token + 4)) else some (.inr token)

def dtbPropertyLength (m : Bytes) (prop : Nat) : Nat := DTB_BYTESWAP32 (word m (prop + 4))

def dtbNextToken (m : Bytes) (fuel token : Nat) : Option Nat :=
  if word m token = DTB_BEGIN_NODE then do
    let tokenchar ← loop (charRound m) fuel (token + 4)
    let tokenchar := if tokenchar % 4 ≠ 0 then tokenchar + (4 - tokenchar % 4) else tokenchar
    loop (zeroRound m) fuel tokenchar
  else if word m token = DTB_END_NODE then some (token + 4)
  else if word m token = DTB_PROP then
    some (token + 4 * (valueWords (dtbPropertyLength m token) + 3))
  else if word m token = DTB_NOP then some (token + 4)
  else some token

/-! ## Properties and children -/

/-- One round of the loops of `dtb_first_property` and `dtb_next_property`. -/
def propertyRound (m : Bytes) (fuel token : Nat) : Option (Nat ⊕ Option Nat) :=
  if word m token = DTB_PROP then some (.inr (some token))
  else if word m token = DTB_END ∨ word m token = DTB_BEGIN_NODE ∨ word m token = DTB_END_NODE then
    some (.inr none)
  else (dtbNextToken m fuel token).map .inl

def seekProperty (m : Bytes) (fuel token : Nat) : Option (Option Nat) := do
  let token ← dtbNextToken m fuel token
  loop (propertyRound m fuel) fuel token

def dtbFirstProperty (m : Bytes) (fuel node : Nat) : Option (Option Nat) := seekProperty m fuel node

def dtbNextProperty (m : Bytes) (fuel prop : Nat) : Option (Option Nat) := seekProperty m fuel prop

def childRound (m : Bytes) (fuel token : Nat) : Option (Nat ⊕ Option Nat) :=
  if word m token = DTB_BEGIN_NODE then some (.inr (some token))
  else if word m token = DTB_END ∨ word m token = DTB_END_NODE then some (.inr none)
  else (dtbNextToken m fuel token).map .inl

def dtbFirstChild (m : Bytes) (fuel node : Nat) : Option (Option Nat) := do
  let token ← dtbNextToken m fuel node
  loop (childRound m fuel) fuel token

/-- One round of the first loop of `dtb_next_sibling`, which looks for the end of the
    node. It reads the words of a name, but for the first, as if they were tokens. -/
def leaveRound (m : Bytes) (s : Nat × Int) : Option ((Nat × Int) ⊕ Nat) :=
  let (node, depth) := s
  if word m node = DTB_END then some (.inr node)
  else if word m node = DTB_BEGIN_NODE then some (.inl (node + 4 + 4, depth + 1))
  else if word m node = DTB_PROP then
    some (.inl (node + 4 * (valueWords (dtbPropertyLength m node) + 2) + 4, depth))
  else if word m node = DTB_END_NODE then
    if depth - 1 ≤ 0 then some (.inr (node + 4)) else some (.inl (node + 4, depth - 1))
  else some (.inl (node + 4, depth))

/-- One round of its second loop, which looks for the beginning of the next node. -/
def siblingRound (m : Bytes) (node : Nat) : Option (Nat ⊕ Option Nat) :=
  if word m node = DTB_BEGIN_NODE then some (.inr (some node))
  else if word m node = DTB_END then some (.inr (some node))
  else if word m node = DTB_END_NODE then some (.inr none)
  else some (.inl (node + 4))

def dtbNextSibling (m : Bytes) (fuel node : Nat) : Option (Option Nat) := do
  let node ← loop (leaveRound m) fuel (node, 0)
  loop (siblingRound m) fuel node

/-- What a `for (p = first; p != NULL; p = next(p))` visits. -/
def visit (next : Nat → Option (Option Nat)) : Nat → Option Nat → Option (List Nat)
  | 0, _ => none
  | _ + 1, none => some []
  | fuel + 1, some p => do
    let q ← next p
    let ps ← visit next fuel q
    pure (p :: ps)

def foreachProperty (m : Bytes) (fuel node : Nat) : Option (List Nat) := do
  let p ← dtbFirstProperty m fuel node
  visit (dtbNextProperty m fuel) fuel p

def foreachChild (m : Bytes) (fuel node : Nat) : Option (List Nat) := do
  let p ← dtbFirstChild m fuel node
  visit (dtbNextSibling m fuel) fuel p

/-! ## The blob -/

def dtbFromptr (m : Bytes) (ptr : Nat) : Option Nat :=
  if ptr = 0 then none
  else if word m ptr ≠ DTB_BYTESWAP32 0xd00dfeed then none
  else if word m (ptr + 24) ≠ DTB_BYTESWAP32 16 then none
  else some ptr

def structBlock (m : Bytes) (devicetree : Nat) : Nat :=
  devicetree + DTB_BYTESWAP32 (word m (devicetree + 8))

def dtbPropertyName (m : Bytes) (devicetree node : Nat) : Nat :=
  devicetree + DTB_BYTESWAP32 (word m (devicetree + 12)) + DTB_BYTESWAP32 (word m (node + 8))

def dtbPropertyUint32 (m : Bytes) (prop : Nat) : Nat := DTB_BYTESWAP32 (word m (prop + 12))

def dtbPropertyUint64 (m : Bytes) (prop : Nat) : Nat := DTB_BYTESWAP64 (m.ld (prop + 12) 8)

def dtbPropertyString (prop : Nat) : Nat := prop + 12

def dtbPropertyArray (prop : Nat) : Nat := prop + 12

/-! ## Paths -/

/-- The state of the loop that splits a path: the next byte, `parsed_path`, `path_depth`
    and `parsed_i`. -/
structure Split where
  i : Nat
  parsed : Bytes
  depth : Nat
  k : Nat

/-- One round of that loop. `parsed_path` is ten rows of 256 bytes. -/
def splitRound (p : Bytes) (path : Nat) (s : Split) : Option (Split ⊕ Split) :=
  if p (path + s.i) = 0 then some (.inr s)
  else if p (path + s.i) = SLASH then
    some (.inl { s with i := s.i + 1, depth := s.depth + 1, k := 0 })
  else if 256 * s.depth + s.k < 10 * 256 then
    some (.inl
      { s with
        i := s.i + 1
        parsed := Function.update s.parsed (256 * s.depth + s.k) (p (path + s.i))
        k := s.k + 1 })
  else none

/-- One round of the search of `dtb_find`: the token and `parsing_depth`. -/
def findRound (m parsed : Bytes) (pathDepth fuel : Nat) (s : Nat × Nat) :
    Option ((Nat × Nat) ⊕ Option Nat) :=
  let (token, depth) := s
  if word m token = DTB_END then some (.inr none)
  else if word m token = DTB_BEGIN_NODE then do
    let r ← strcmpNodename fuel parsed (256 * depth) m (token + 4)
    if r = 0 then
      if depth = pathDepth then pure (.inr (some token))
      else pure (.inl (token + 4 + 4, depth + 1))
    else
      match ← dtbNextSibling m fuel token with
      | none => pure (.inr none)
      | some sibling => pure (.inl (sibling, depth))
  else if word m token = DTB_PROP then
    some (.inl (token + 4 * (dtbPropertyLength m token / 4 + 2) + 4, depth))
  else some (.inl (token + 4, depth))

def dtbFind (m : Bytes) (fuel devicetree : Nat) (p : Bytes) (path : Nat) : Option (Option Nat) := do
  let block := structBlock m devicetree
  if word m block ≠ DTB_BEGIN_NODE then pure none
  else if (← strcmpNodename fuel p path (cstr [SLASH]) 0) = 0 then pure (some block)
  else if p path ≠ SLASH then pure none
  else do
    let s ← loop (splitRound p path) fuel ⟨1, Bytes.fill 0, 0, 0⟩
    loop (findRound m s.parsed s.depth fuel) fuel (block + 4, 0)

end ZeptOS.Dtb
