import Mathlib.Data.List.Forall2
import ZeptOS.Lib.Prog
import ZeptOS.Dtb.Resolve

/-!
# `dtbparse` of `kernel/main.c`

The kernel learns from the device tree where its devices and its memory are. `dtbparse`
runs once, before anything else, and leaves what it finds in globals; where it does not
like what it sees it panics or waits for ever.

The registers of the virtio devices are a function from addresses to 32-bit words, of
which `virtio_disk_probe` reads four through the global `virtio0`, which is why the loop
over the children of `/soc` has to assign it before it knows whether it wants to.
-/

namespace ZeptOS.Dtb

open Lib

variable {g : Globals} {b : Nat}

structure Globals where
  uart0 : Nat
  uart0_irq : Nat
  ram_start : Nat
  ram_size : Nat
  plic : Nat
  clint : Nat
  virtio0 : Nat
  virtio0_irq : Nat
  deriving DecidableEq

inductive Stop where
  | dtbparse            -- panic("dtbparse")
  | noChosen            -- "no /chosen node", and a loop for ever
  | noStdout            -- "no /chosen:stdout-path node", and a loop for ever
  | uart                -- "incompatible uart", and a loop for ever
  | noDisk              -- panic("virtio disk not found")
  | fault               -- a null pointer was read through
  | endless             -- a loop of the reader does not end
  deriving DecidableEq, Repr

abbrev Boot := Prog Globals Stop

def reader {α : Type} (x : Option α) : Boot α :=
  match x with
  | some a => pure a
  | none => throw .endless

def deref (p : Option Nat) : Boot Nat :=
  match p with
  | some a => pure a
  | none => throw .fault

def strncmp (p : Bytes) (i : Nat) (q : Bytes) (j : Nat) : Nat → Int
  | 0 => 0
  | n + 1 =>
    if p i ≠ 0 ∧ p i = q j then strncmp p (i + 1) q (j + 1) n
    else (p i).toNat - (q j).toNat

/-- Is the string at an address this one? With its final 0, as every call has it. -/
def sameString (s : List Char) (m : Bytes) (a : Nat) : Bool :=
  strncmp (cstr (chars s)) 0 m a (s.length + 1) == 0

def nameStdoutPath : List Char := ['s', 't', 'd', 'o', 'u', 't', '-', 'p', 'a', 't', 'h']
def nameCompatible : List Char := ['c', 'o', 'm', 'p', 'a', 't', 'i', 'b', 'l', 'e']
def nameReg : List Char := ['r', 'e', 'g']
def nameInterrupts : List Char := ['i', 'n', 't', 'e', 'r', 'r', 'u', 'p', 't', 's']
def nameUart : List Char := ['n', 's', '1', '6', '5', '5', '0', 'a']
def namePlic : List Char :=
  ['s', 'i', 'f', 'i', 'v', 'e', ',', 'p', 'l', 'i', 'c', '-', '1', '.', '0', '.', '0']
def nameClint : List Char := ['s', 'i', 'f', 'i', 'v', 'e', ',', 'c', 'l', 'i', 'n', 't', '0']
def nameVirtio : List Char := ['v', 'i', 'r', 't', 'i', 'o', ',', 'm', 'm', 'i', 'o']
def nameChosen : List Char := ['c', 'h', 'o', 's', 'e', 'n']
def nameMemory : List Char := ['m', 'e', 'm', 'o', 'r', 'y']
def nameSoc : List Char := ['s', 'o', 'c']

/-- `dtb_find` of a path of one component that is a constant of the source. -/
def findTop (m : Bytes) (fuel devicetree : Nat) (name : List Char) : Option (Option Nat) :=
  dtbFind m fuel devicetree (cstr (SLASH :: chars name)) 0

/-! ## The console -/

/-- The loop over the properties of `/chosen`: the node `stdout-path` names. -/
def stdoutNode (m : Bytes) (fuel devicetree : Nat) : List Nat → Option Nat → Boot (Option Nat)
  | [], node => pure node
  | prop :: props, node => do
    if sameString nameStdoutPath m (dtbPropertyName m devicetree prop) then do
      let found ← reader (dtbFind m fuel devicetree m (dtbPropertyString prop))
      stdoutNode m fuel devicetree props found
    else stdoutNode m fuel devicetree props node

def parseUart (m : Bytes) (devicetree : Nat) : List Nat → Boot Unit
  | [] => pure ()
  | prop :: props => do
    let propname := dtbPropertyName m devicetree prop
    if sameString nameCompatible m propname then
      if sameString nameUart m (dtbPropertyString prop) = false then throw .uart else pure ()
    else if sameString nameReg m propname then
      modify fun g => { g with uart0 := DTB_BYTESWAP64 (m.ld (dtbPropertyArray prop) 8) }
    else if sameString nameInterrupts m propname then
      modify fun g => { g with uart0_irq := dtbPropertyUint32 m prop }
    else pure ()
    parseUart m devicetree props

/-! ## The memory -/

/-- The loop over the properties of `/memory`. The two other names it looks for change
    nothing. -/
def parseMemory (m : Bytes) (devicetree : Nat) : List Nat → Boot Unit
  | [] => pure ()
  | prop :: props => do
    if sameString nameReg m (dtbPropertyName m devicetree prop) then
      modify fun g =>
        { g with
          ram_start := DTB_BYTESWAP64 (m.ld (dtbPropertyArray prop) 8)
          ram_size := DTB_BYTESWAP64 (m.ld (dtbPropertyArray prop + 8) 8) }
    else pure ()
    parseMemory m devicetree props

/-! ## The devices -/

/-- What the loop over the properties of a child of `/soc` finds. -/
structure Device where
  compatible : Option Nat
  reg : Nat
  irq : Nat
  deriving DecidableEq

def Device.prop (m : Bytes) (devicetree : Nat) (d : Device) (prop : Nat) : Device :=
  let propname := dtbPropertyName m devicetree prop
  if sameString nameCompatible m propname then { d with compatible := some (dtbPropertyString prop) }
  else if sameString nameReg m propname then { d with reg := dtbPropertyUint64 m prop }
  else if sameString nameInterrupts m propname then { d with irq := dtbPropertyUint32 m prop }
  else d

def deviceOf (m : Bytes) (devicetree : Nat) (props : List Nat) : Device :=
  props.foldl (Device.prop m devicetree) ⟨none, 0, 0⟩

abbrev VIRTIO_MMIO_MAGIC_VALUE : Nat := 0x000
abbrev VIRTIO_MMIO_VERSION : Nat := 0x004
abbrev VIRTIO_MMIO_DEVICE_ID : Nat := 0x008
abbrev VIRTIO_MMIO_VENDOR_ID : Nat := 0x00c

def virtioDiskProbe (mmio : Nat → Nat) (virtio0 : Nat) : Nat :=
  if mmio (virtio0 + VIRTIO_MMIO_MAGIC_VALUE) ≠ 0x74726976 ∨
      mmio (virtio0 + VIRTIO_MMIO_VERSION) ≠ 2 ∨
      mmio (virtio0 + VIRTIO_MMIO_DEVICE_ID) ≠ 2 ∨
      mmio (virtio0 + VIRTIO_MMIO_VENDOR_ID) ≠ 0x554d4551 then 1
  else 0

/-- What the loop over the children of `/soc` does with a device, given whether a disk has
    been found. -/
def useDevice (mmio : Nat → Nat) (m : Bytes) (d : Device) (found : Bool) : Boot Bool := do
  let compatible ← deref d.compatible
  if sameString namePlic m compatible then do
    modify fun g => { g with plic := d.reg }
    pure found
  else if sameString nameClint m compatible then do
    modify fun g => { g with clint := d.reg }
    pure found
  else if sameString nameVirtio m compatible then do
    modify fun g => { g with virtio0 := d.reg, virtio0_irq := d.irq }
    let g ← get
    pure (found || virtioDiskProbe mmio g.virtio0 == 0)
  else pure found

def parseSoc (mmio : Nat → Nat) (m : Bytes) (fuel devicetree : Nat) : List Nat → Bool → Boot Bool
  | [], found => pure found
  | node :: nodes, found => do
    let props ← reader (foreachProperty m fuel node)
    let found ← useDevice mmio m (deviceOf m devicetree props) found
    parseSoc mmio m fuel devicetree nodes found

def dtbparse (mmio : Nat → Nat) (m : Bytes) (fuel fdt : Nat) : Boot Unit := do
  match dtbFromptr m fdt with
  | none => throw .dtbparse
  | some devicetree => do
    match ← reader (findTop m fuel devicetree nameChosen) with
    | none => throw .noChosen
    | some chosen => do
      let props ← reader (foreachProperty m fuel chosen)
      match ← stdoutNode m fuel devicetree props none with
      | none => throw .noStdout
      | some stdout => do
        let props ← reader (foreachProperty m fuel stdout)
        parseUart m devicetree props
        let memory ← deref (← reader (findTop m fuel devicetree nameMemory))
        let props ← reader (foreachProperty m fuel memory)
        parseMemory m devicetree props
        let soc ← deref (← reader (findTop m fuel devicetree nameSoc))
        let nodes ← reader (foreachChild m fuel soc)
        let found ← parseSoc mmio m fuel devicetree nodes false
        if found = false then throw .noDisk else pure ()

/-! ## Which disk is used -/

section Disk

variable {mmio : Nat → Nat} {m : Bytes} {fuel a fdt : Nat} {t : Tree}

def Device.isVirtio (m : Bytes) (d : Device) : Bool := d.compatible.any (sameString nameVirtio m)

/-- `virtio_disk_probe` succeeds when `virtio0` is the device. -/
def Device.answers (mmio : Nat → Nat) (d : Device) : Bool := virtioDiskProbe mmio d.reg == 0

/-- The devices the children of a node describe, in order. -/
def Node.devices (m : Bytes) (devicetree b : Nat) (n : Node) : List Device :=
  (n.childrenAt b).map fun x => deviceOf m devicetree (x.2.propsAt x.1)

def Node.virtios (m : Bytes) (devicetree b : Nat) (n : Node) : List Device :=
  (n.devices m devicetree b).filter (Device.isVirtio m)

theorem sameString_head {c : Char} {s : List Char} (h : sameString (c :: s) m b = true) :
    m b = UInt8.ofNat c.toNat := by
  by_contra hne
  have h0 : cstr (chars (c :: s)) 0 = UInt8.ofNat c.toNat := rfl
  simp only [sameString, strncmp, h0, beq_iff_eq] at h
  rw [if_neg (fun hb => hne hb.2.symm)] at h
  apply hne
  apply UInt8.toNat_inj.mp
  omega

theorem sameString_virtio (h : sameString nameVirtio m b = true) :
    sameString namePlic m b = false ∧ sameString nameClint m b = false := by
  have hv := sameString_head h
  constructor
  · by_contra hp
    have := sameString_head (Bool.of_not_eq_false hp)
    rw [hv] at this
    exact absurd this (by decide)
  · by_contra hp
    have := sameString_head (Bool.of_not_eq_false hp)
    rw [hv] at this
    exact absurd this (by decide)

theorem useDevice_spec (d : Device) (found : Bool) (g : Globals) :
    Prog.wp (useDevice mmio m d found) (fun _ => True) (fun found' g' => if d.isVirtio m then
        found' = (found || d.answers mmio) ∧ g'.virtio0 = d.reg ∧ g'.virtio0_irq = d.irq
      else found' = found ∧ g'.virtio0 = g.virtio0 ∧ g'.virtio0_irq = g.virtio0_irq) g := by
  unfold useDevice
  cases hd : d.compatible with
  | none => simp [deref]
  | some c =>
    have hv : d.isVirtio m = sameString nameVirtio m c := by simp [Device.isVirtio, hd]
    simp only [deref, pure_bind, hv]
    by_cases h : sameString nameVirtio m c = true
    · obtain ⟨hp, hc⟩ := sameString_virtio h
      simp only [hp, hc, h, Bool.false_eq_true, if_true, if_false, Prog.wp_bind, Prog.wp_modify,
        Prog.wp_get, Prog.wp_pure, Device.answers, and_self]
    · rw [Bool.not_eq_true] at h
      simp only [h, Bool.false_eq_true, if_false]
      split_ifs <;> simp only [Prog.wp_bind, Prog.wp_modify, Prog.wp_pure, and_self]

/-- **The loop over the children of `/soc`**: a disk is found if one of the virtio devices
    answers, and the last of them stays in the globals. -/
theorem parseSoc_spec {ds : List Device} : ∀ {nodes : List Nat} {found : Bool} {g : Globals},
    List.Forall₂ (fun b d => ∃ props, foreachProperty m fuel b = some props ∧
      deviceOf m fdt props = d) nodes ds →
    Prog.wp (parseSoc mmio m fuel fdt nodes found) (fun _ => True) (fun found' g' =>
      found' = (found || (ds.filter (Device.isVirtio m)).any (Device.answers mmio)) ∧
      (∀ d, (ds.filter (Device.isVirtio m)).getLast? = some d →
        g'.virtio0 = d.reg ∧ g'.virtio0_irq = d.irq) ∧
      ((ds.filter (Device.isVirtio m)).getLast? = none →
        g'.virtio0 = g.virtio0 ∧ g'.virtio0_irq = g.virtio0_irq)) g := by
  induction ds with
  | nil =>
    intro nodes found g h
    cases h
    simp [parseSoc]
  | cons d ds ih =>
    intro nodes found g h
    cases h with
    | cons hd htl =>
      obtain ⟨props, hprops, rfl⟩ := hd
      simp only [parseSoc, hprops, reader, pure_bind]
      refine Prog.wp_call (useDevice_spec _ found g) fun found₁ g₁ h₁ => ?_
      refine Prog.wp_mono (ih htl) fun found' g' h' => ?_
      obtain ⟨hfound, hlast, hnone⟩ := h'
      by_cases hv : Device.isVirtio m (deviceOf m fdt props) = true
      · rw [if_pos hv] at h₁
        rw [List.filter_cons_of_pos hv]
        refine ⟨by rw [hfound, h₁.1, List.any_cons, Bool.or_assoc], fun d' hd' => ?_, by simp⟩
        rw [List.getLast?_cons] at hd'
        cases hl : (ds.filter (Device.isVirtio m)).getLast? with
        | none =>
          rw [hl, Option.getD_none, Option.some.injEq] at hd'
          rw [← hd', (hnone hl).1, (hnone hl).2]
          exact h₁.2
        | some l =>
          rw [hl, Option.getD_some] at hd'
          exact hlast d' (hl.trans hd')
      · rw [if_neg hv] at h₁
        rw [List.filter_cons_of_neg hv]
        refine ⟨by rw [hfound, h₁.1], hlast, fun hl => ?_⟩
        rw [(hnone hl).1, (hnone hl).2]
        exact h₁.2

theorem wp_true {α : Type} {x : Boot α} : Prog.wp x (fun _ => True) (fun _ _ => True) g := by
  unfold Prog.wp
  split <;> trivial

theorem dtbFromptr_eq {ptr devicetree : Nat} (h : dtbFromptr m ptr = some devicetree) :
    ptr = devicetree := by
  unfold dtbFromptr at h
  split_ifs at h
  exact Option.some.inj h

theorem search_single {c : List UInt8} {f : Forest} : ∀ {a : Nat}, search f a (fun _ => none) [c] =
      ((f.nodes a).find? fun x => matchesName c x.2.name).map Prod.fst := by
  induction f with
  | nil => intro a; rfl
  | cons nops name props children endNops rest _ ih =>
    intro a
    simp only [search, Forest.nodes]
    by_cases hm : matchesName c name = true
    · rw [if_pos hm, if_pos trivial, List.find?_cons_of_pos (by exact hm)]
      rfl
    · rw [if_neg hm, List.find?_cons_of_neg (by exact hm)]
      cases rest with
      | nil => rfl
      | cons _ _ _ _ _ _ => exact ih

def Tree.top (t : Tree) (a : Nat) (name : List Char) : Option (Nat × Node) :=
  (t.root.childrenAt a).find? fun x => matchesName (chars name) x.2.name

theorem holds_cstr (s : List UInt8) : Holds (cstr s) 0 (s ++ [0]) := by
  refine holds_of_get fun k hk => ?_
  rw [Nat.zero_add, cstr]
  by_cases h : k < s.length
  · rw [List.getElem_append_left h, List.getD_eq_getElem _ _ h]
  · rw [List.getElem_append_right (by omega), List.getD_eq_default _ _ (by omega)]
    simp

theorem findTop_spec (hb : Block m (structBlock m fdt) t) (hf : (encode t.tokens).length ≤ fuel)
    {name : List Char} (hok : PathOk [chars name]) (hn : name.length + 1 < fuel) :
    findTop m fuel fdt name = some ((t.top (structBlock m fdt) name).map Prod.fst) := by
  have hpath : Holds (cstr (SLASH :: chars name)) 0 (pathBytes [chars name] ++ [0]) := by
    simpa [pathBytes] using holds_cstr (SLASH :: chars name)
  rw [findTop, dtbFind_spec hb rfl hok hpath hf (by simpa [pathBytes, chars] using hn)]
  exact congrArg some search_single

/-- The disk `dtbparse` should use: the first virtio device that answers. -/
def UsesProbed (mmio : Nat → Nat) (virtios : List Device) (g : Globals) : Prop :=
  ∃ d, virtios.find? (Device.answers mmio) = some d ∧ g.virtio0 = d.reg ∧ g.virtio0_irq = d.irq

/-- The last virtio device has the registers and the interrupt of the first that answers. -/
def LastAnswers (mmio : Nat → Nat) (virtios : List Device) : Prop :=
  ∃ d l, virtios.find? (Device.answers mmio) = some d ∧ virtios.getLast? = some l ∧
    l.reg = d.reg ∧ l.irq = d.irq

theorem dtbparse_spec {n : Node} {g' : Globals} (hb : Block m (structBlock m fdt) t)
    (hf : (encode t.tokens).length ≤ fuel) (hsoc : t.top (structBlock m fdt) nameSoc = some (b, n))
    (hrun : dtbparse mmio m fuel fdt g = .ok ((), g')) :
    (∃ d ∈ n.virtios m fdt b, d.answers mmio = true) ∧
      ∃ d l, (n.virtios m fdt b).find? (Device.answers mmio) = some d ∧
        (n.virtios m fdt b).getLast? = some l ∧ g'.virtio0 = l.reg ∧ g'.virtio0_irq = l.irq := by
  have hsize : nameSoc.length + 1 < fuel := by
    rw [length_encode, t.wordsOf_tokens] at hf
    simp only [nameSoc, List.length_cons, List.length_nil]
    omega
  have hfind := @findTop_spec _ _ _ _ hb hf nameSoc
    ⟨by decide, by decide, by decide, by decide +kernel⟩ hsize
  rw [hsoc] at hfind
  have hhas : t.Has (structBlock m fdt) b n := .child .root (List.mem_of_find?_eq_some hsoc)
  have hnodes : List.Forall₂ (fun b d => ∃ props, foreachProperty m fuel b = some props ∧
      deviceOf m fdt props = d) ((n.childrenAt b).map Prod.fst) (n.devices m fdt b) := by
    rw [Node.devices, List.forall₂_map_left_iff, List.forall₂_map_right_iff, List.forall₂_same]
    intro x hx
    exact ⟨_, (hb.foreach hf (hhas.child hx)).1, rfl⟩
  have hpost : Prog.wp (dtbparse mmio m fuel fdt) (fun _ => True) (fun _ g' =>
      (n.virtios m fdt b).any (Device.answers mmio) = true ∧
      ∀ l, (n.virtios m fdt b).getLast? = some l → g'.virtio0 = l.reg ∧ g'.virtio0_irq = l.irq) g := by
    unfold dtbparse
    cases hptr : dtbFromptr m fdt with
    | none => trivial
    | some devicetree =>
      obtain rfl := dtbFromptr_eq hptr
      refine Prog.wp_call wp_true fun chosen g _ => ?_
      cases chosen with
      | none => trivial
      | some chosen =>
        refine Prog.wp_call wp_true fun _ g _ => Prog.wp_call wp_true fun stdout g _ => ?_
        cases stdout with
        | none => trivial
        | some stdout =>
          refine Prog.wp_call wp_true fun _ g _ => Prog.wp_call wp_true fun _ g _ => ?_
          refine Prog.wp_call wp_true fun _ g _ => Prog.wp_call wp_true fun _ g _ => ?_
          refine Prog.wp_call wp_true fun _ g _ => Prog.wp_call wp_true fun _ g _ => ?_
          -- from here on it matters what is read
          simp only [hfind, Option.map_some, reader, deref, pure_bind, (hb.foreach hf hhas).2]
          refine Prog.wp_call (parseSoc_spec hnodes) fun found g' h => ?_
          cases found with
          | false => trivial
          | true => exact ⟨by simpa [Node.virtios] using h.1.symm, h.2.1⟩
  unfold Prog.wp at hpost
  rw [hrun] at hpost
  obtain ⟨hany, hlast⟩ := hpost
  obtain ⟨d, hd, ha⟩ := List.any_eq_true.mp hany
  obtain ⟨f, hf⟩ := Option.isSome_iff_exists.mp (List.find?_isSome.mpr ⟨d, hd, ha⟩)
  have hne := List.ne_nil_of_mem hd
  have hl := List.getLast?_eq_some_getLast hne
  exact ⟨⟨d, hd, ha⟩, f, _, hf, hl, hlast _ hl⟩

/-- **`dtbparse` uses the disk it probed if and only if no other virtio device comes after
    it.** For every device tree with a `/soc` node, whatever its children are and whichever
    of them answer: when `dtbparse` returns, a disk has answered, and `virtio0` and
    `virtio0_irq` are those of the first that did exactly when the last `virtio,mmio` child
    has the same ones. -/
theorem dtbparse_uses_probed_iff {b : Nat} {n : Node} {g g' : Globals}
    (hb : Block m (structBlock m fdt) t) (hf : (encode t.tokens).length ≤ fuel)
    (hsoc : t.top (structBlock m fdt) nameSoc = some (b, n))
    (hrun : dtbparse mmio m fuel fdt g = .ok ((), g')) :
    (∃ d ∈ n.virtios m fdt b, d.answers mmio = true) ∧
      (UsesProbed mmio (n.virtios m fdt b) g' ↔ LastAnswers mmio (n.virtios m fdt b)) := by
  obtain ⟨hany, d, l, hfind, hlast, h0, h1⟩ := dtbparse_spec hb hf hsoc hrun
  refine ⟨hany, ?_⟩
  constructor
  · rintro ⟨d', hd', hreg, hirq⟩
    exact ⟨d', l, hd', hlast, h0 ▸ hreg, h1 ▸ hirq⟩
  · rintro ⟨d', l', hd', hl', hreg, hirq⟩
    obtain rfl := Option.some.inj (hlast.symm.trans hl')
    exact ⟨d', hd', h0.trans hreg, h1.trans hirq⟩

/-- The names of the properties below, each behind the others. -/
def socStrings : List UInt8 :=
  [nameStdoutPath, nameCompatible, nameReg, nameInterrupts].flatMap fun s => chars s ++ [0]

def virtioNode (unit : Char) (reg irq : Nat) (rest : Forest) : Forest :=
  .cons 0 (chars ['v', '@', unit])
    [⟨0, 12, chars nameVirtio ++ [0]⟩, ⟨0, 23, be32 0 ++ be32 reg ++ be32 0 ++ be32 0x1000⟩,
      ⟨0, 27, be32 irq⟩] .nil 0 rest

/-- A tree with these nodes below `/soc`. The console is some node without properties. -/
def socTree (nodes : Forest) : Tree where
  props := []
  children :=
    .cons 0 (chars nameChosen) [⟨0, 0, SLASH :: chars nameMemory ++ [0]⟩] .nil 0
      (.cons 0 (chars nameMemory) [] .nil 0 (.cons 0 (chars nameSoc) [] nodes 0 .nil))
  endNops := 0
  tailNops := 0

def socMemory (nodes : Forest) : Bytes := memoryAt 64 (blob (socTree nodes) socStrings)

def oneDisk (addr : Nat) : Nat :=
  if addr = 0x1000 then 0x74726976
  else if addr = 0x1004 then 2
  else if addr = 0x1008 then 2
  else if addr = 0x100c then 0x554d4551
  else 0

def socNode (nodes : Forest) : Node := ⟨chars nameSoc, [], nodes, 0⟩

def diskFirst : Forest := virtioNode '1' 0x1000 1 (virtioNode '2' 0x2000 2 .nil)

def diskLast : Forest := virtioNode '2' 0x2000 2 (virtioNode '1' 0x1000 1 .nil)

/-- A disk behind an empty slot is used. -/
theorem dtbparse_uses_disk_last :
    UsesProbed oneDisk ((socNode diskLast).virtios (socMemory diskLast) 64 164)
      ⟨0, 0, 0, 0, 0, 0, 0x1000, 1⟩ := by
  have hblock : Block (socMemory diskLast) (structBlock (socMemory diskLast) 64) (socTree diskLast) :=
    block_blob (by decide) (by decide +kernel) (by decide +kernel)
  have hrun : dtbparse oneDisk (socMemory diskLast) 500 64 ⟨0, 0, 0, 0, 0, 0, 0, 0⟩ =
      .ok ((), ⟨0, 0, 0, 0, 0, 0, 0x1000, 1⟩) := by decide +kernel
  have hlast : LastAnswers oneDisk ((socNode diskLast).virtios (socMemory diskLast) 64 164) :=
    ⟨⟨some 272, 0x1000, 1⟩, ⟨some 272, 0x1000, 1⟩, by decide +kernel, by decide +kernel, rfl, rfl⟩
  exact (dtbparse_uses_probed_iff hblock (by decide +kernel) (by rfl) hrun).2.mpr hlast

/-- **A disk before an empty slot is not**: `virtio0` is the empty slot. -/
theorem dtbparse_uses_empty_slot :
    (socTree diskFirst).top 104 nameSoc = some (164, socNode diskFirst) ∧
    dtbparse oneDisk (socMemory diskFirst) 500 64 ⟨0, 0, 0, 0, 0, 0, 0, 0⟩ =
      .ok ((), ⟨0, 0, 0, 0, 0, 0, 0x2000, 2⟩) ∧
    ¬ UsesProbed oneDisk ((socNode diskFirst).virtios (socMemory diskFirst) 64 164)
      ⟨0, 0, 0, 0, 0, 0, 0x2000, 2⟩ := by
  refine ⟨rfl, by decide +kernel, ?_⟩
  rintro ⟨d, hd, h0, -⟩
  have hfirst : ((socNode diskFirst).virtios (socMemory diskFirst) 64 164).find?
      (Device.answers oneDisk) = some ⟨some 192, 0x1000, 1⟩ := by decide +kernel
  rw [hfirst, Option.some.injEq] at hd
  rw [← hd] at h0
  exact absurd h0 (by decide)

end Disk

end ZeptOS.Dtb
