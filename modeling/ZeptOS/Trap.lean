import ZeptOS.Mem.Proc

/-!
# A trap and what it keeps

`uservec` and `userret` of `trampoline.S`, and `usertrap` and `usertrapret` of `trap.c` between them, as far
as they touch what a user program sees. The memory is the trapframe of the process, at the address where
the trampoline has it; other processes have their own. `fcsr` is a register like the others here. That
neither file mentions it is what this module is about (`trap_transparent_iff`).

`kernelvec`, for interrupts that find the kernel running, is not modelled: what it saves are the kernel's own
registers, on the kernel's stack.
-/

namespace ZeptOS.Trap

open Mem Function

variable {v : Word} {r : Reg} {b : Bool} {off : Nat}

abbrev Word := BitVec 64

inductive Reg where
  | x (i : Fin 32)
  | f (i : Fin 32)
  deriving DecidableEq

abbrev sp : Reg := .x 2
abbrev tp : Reg := .x 4
abbrev t0 : Reg := .x 5
abbrev t1 : Reg := .x 6
abbrev a0 : Reg := .x 10

structure Hart where
  reg : Reg → Word
  fcsr : BitVec 32
  pc : Word
  ssp : Word
  elp : Bool           -- a landing pad is expected
  sepc : Word
  scause : Word
  sstatus : Word
  sscratch : Word
  stvec : Word
  satp : Word
  mem : Nat → Word

def SIE : Nat := 1
def SPIE : Nat := 5
def SPP : Nat := 8
def SPELP : Nat := 23

def writeBit (w : Word) (i : Nat) (b : Bool) : Word :=
  (w &&& ~~~(1#64 <<< i)) ||| (if b then 1#64 <<< i else 0)

namespace Hart

def set (m : Hart) (r : Reg) (v : Word) : Hart := { m with reg := update m.reg r v }

/-- `sd` and `fsd`, at `off(a0)` -/
def sd (m : Hart) (r : Reg) (off : Nat) : Hart :=
  { m with mem := update m.mem ((m.reg a0).toNat + off) (m.reg r) }

def ld (m : Hart) (r : Reg) (off : Nat) : Hart := m.set r (m.mem ((m.reg a0).toNat + off))

/-- A store of the kernel to `p->trapframe`, if it is configured. -/
def put (m : Hart) (b : Bool) (off : Nat) (v : Word) : Hart :=
  { m with mem := if b then update m.mem (TRAPFRAME + off) v else m.mem }

def interrupt (m : Hart) : Hart :=
  let s := writeBit (writeBit m.sstatus SPIE (m.sstatus.getLsbD SIE)) SIE false
  { m with
    sepc := m.pc
    scause := 0x8000000000000005
    sstatus := writeBit (writeBit s SPP false) SPELP m.elp
    elp := false
    pc := m.stvec }

def sret (m : Hart) : Hart :=
  let s := writeBit (writeBit m.sstatus SIE (m.sstatus.getLsbD SPIE)) SPIE true
  { m with
    pc := m.sepc
    elp := m.sstatus.getLsbD SPELP
    sstatus := writeBit (writeBit s SPP false) SPELP false }

end Hart

def slot : Reg → Nat
  | .x i => 32 + 8 * i
  | .f i => 288 + 8 * i

/-- What the trampoline stores and loads in a row: all but `x0` and `a0`. -/
def saved : List Reg :=
  ((List.finRange 32).filter fun i => i ≠ 0 ∧ i ≠ 10).map .x ++ (List.finRange 32).map .f

def uservec (m : Hart) : Hart :=
  let m := { m with sscratch := m.reg a0 }
  let m := m.set a0 (BitVec.ofNat 64 TRAPFRAME)
  let m := saved.foldl (fun m r => m.sd r (slot r)) m
  let m := (m.set t0 m.sscratch).sd t0 112
  let m := (((m.ld sp 8).ld tp 32).ld t0 16).ld t1 0
  { m with satp := m.reg t1, pc := m.reg t0 }

def userret (m : Hart) : Hart :=
  let m := { m with satp := m.reg a0 }
  let m := m.set a0 (BitVec.ofNat 64 TRAPFRAME)
  let m := saved.foldl (fun m r => m.ld r (slot r)) m
  (m.ld a0 112).sret

/-- What `devintr` returns: 2 for the timer, 1 for another device. -/
def devintr (scause : Word) : Nat :=
  if scause &&& 0x8000000000000000 ≠ 0 ∧ scause &&& 0xff = 9 then 1
  else if scause &&& 0x8000000000000000 ≠ 0 ∧ scause &&& 0xff = 5 then 2
  else 0

section

variable (c : Board)

/-- `usertrap` up to its call of `yield`. `none` if it panics or does not come there. -/
def usertrap (kernelvec : Word) (killed : Bool) (m : Hart) : Option Hart :=
  if m.sstatus.getLsbD SPP then none
  else
    let m := { m with stvec := kernelvec }
    let m := m.put c.landingPad 552 ((m.sstatus >>> 23) &&& 1)
    let m := m.put c.shadowStack (tfSsp c) m.ssp
    let m := m.put true 24 m.sepc
    if m.scause = 8 ∨ killed ∨ devintr m.scause ≠ 2 then none else some m

/-- `usertrapret` up to its call of `userret`, with the addresses and the page table that it uses. -/
def usertrapret (uservec kstack usertrap satp : Word) (m : Hart) : Hart :=
  let m := { m with sstatus := writeBit m.sstatus SIE false, stvec := uservec }
  let m := (((m.put true 0 m.satp).put true 8 (kstack + 4096)).put true 16 usertrap).put true 32 (m.reg tp)
  let x := writeBit (writeBit m.sstatus SPP false) SPIE true
  let pelp := m.mem (TRAPFRAME + 552)
  let m := { m with
    sstatus := if c.landingPad then (x &&& ~~~(1#64 <<< 23)) ||| (pelp <<< (23 : Nat)) else x
    ssp := if c.shadowStack then m.mem (TRAPFRAME + tfSsp c) else m.ssp
    sepc := m.mem (TRAPFRAME + 24) }
  m.set a0 satp

structure Same (m m' : Hart) : Prop where
  reg : ∀ r, r ≠ .x 0 → m'.reg r = m.reg r
  fcsr : m'.fcsr = m.fcsr
  pc : m'.pc = m.pc
  ssp : c.shadowStack = true → m'.ssp = m.ssp
  elp : c.landingPad = true → m'.elp = m.elp

structure Saved (m : Hart) (mem : Nat → Word) : Prop where
  reg : ∀ r, r ≠ .x 0 → mem (TRAPFRAME + slot r) = m.reg r
  pc : mem (TRAPFRAME + 24) = m.pc
  ssp : c.shadowStack = true → mem (TRAPFRAME + tfSsp c) = m.ssp
  elp : c.landingPad = true → (mem (TRAPFRAME + 552)).getLsbD 0 = m.elp

end

theorem slot_bounds (h : r ≠ .x 0) : 40 ≤ slot r ∧ slot r ≤ 536 := by
  cases r with
  | x i =>
    have : i.val ≠ 0 := fun hi => h (congrArg Reg.x (Fin.ext hi))
    simp only [slot]
    omega
  | f i => simp only [slot]; omega

theorem place_ne {q : Reg} (h : r ≠ q) : TRAPFRAME + slot r ≠ TRAPFRAME + slot q := by
  intro he
  have hs := Nat.add_left_cancel he
  cases r <;> cases q <;> simp only [slot] at hs
  · exact h (congrArg Reg.x (Fin.ext (by omega)))
  · omega
  · omega
  · exact h (congrArg Reg.f (Fin.ext (by omega)))

theorem mem_saved : r ∈ saved ↔ r ≠ .x 0 ∧ r ≠ a0 := by
  cases r <;> simp [saved]

theorem tfSsp_ge (c : Board) : 552 ≤ tfSsp c := by
  unfold tfSsp
  split <;> omega

theorem getLsbD_writeBit (w : Word) {i j : Nat} (hj : j < 64) (b : Bool) :
    (writeBit w i b).getLsbD j = if j = i then b else w.getLsbD j := by
  have hone : (1#64 <<< i).getLsbD j = decide (j = i) := by
    rw [BitVec.getLsbD_shiftLeft, BitVec.getLsbD_one, Bool.eq_iff_iff]
    simp [hj]
    omega
  rw [writeBit, BitVec.getLsbD_or, BitVec.getLsbD_and, BitVec.getLsbD_not, hone]
  cases b
  · by_cases h : j = i <;> simp [h, hj]
  · rw [if_pos rfl, hone]
    by_cases h : j = i <;> simp [h, hj]

section

variable {m : Hart} {rs : List Reg}

theorem put_mem {off' : Nat} (h : off' ≠ off) :
    (m.put b off v).mem (TRAPFRAME + off') = m.mem (TRAPFRAME + off') := by
  cases b
  · rfl
  · exact update_of_ne (fun he => h (Nat.add_left_cancel he)) ..

theorem put_self (h : b = true) : (m.put b off v).mem (TRAPFRAME + off) = v := by
  subst h
  exact update_self ..

theorem stores (ha : (m.reg a0).toNat = TRAPFRAME) :
    ∃ mem, rs.foldl (fun m r => m.sd r (slot r)) m = { m with mem } ∧
      ∀ r, mem (TRAPFRAME + slot r) = if r ∈ rs then m.reg r else m.mem (TRAPFRAME + slot r) := by
  induction rs generalizing m with
  | nil => exact ⟨m.mem, rfl, fun r => by simp⟩
  | cons q rs ih =>
    obtain ⟨mem, he, hm⟩ := @ih (m.sd q (slot q)) ha
    refine ⟨mem, he, fun r => (hm r).trans ?_⟩
    simp only [Hart.sd, ha]
    by_cases hrq : r = q
    · simp [hrq]
    · rw [update_of_ne (place_ne hrq)]
      simp [hrq]

theorem loads (ha : (m.reg a0).toNat = TRAPFRAME) (hrs : a0 ∉ rs) :
    rs.foldl (fun m r => m.ld r (slot r)) m =
      { m with reg := fun r => if r ∈ rs then m.mem (TRAPFRAME + slot r) else m.reg r } := by
  induction rs generalizing m with
  | nil => simp
  | cons q rs ih =>
    rw [List.mem_cons, not_or] at hrs
    rw [List.foldl_cons, Hart.ld, ha, Hart.set, ih _ hrs.2]
    · congr 1
      funext r
      by_cases hrq : r = q
      · subst hrq
        simp
      · simp [hrq]
    · exact (congrArg BitVec.toNat (update_of_ne hrs.1 ..)).trans ha

theorem uservec_spec (m : Hart) : (uservec m).sstatus = m.sstatus ∧ (uservec m).scause = m.scause ∧
    (uservec m).sepc = m.sepc ∧ (uservec m).ssp = m.ssp ∧
    ∀ r, r ≠ .x 0 → (uservec m).mem (TRAPFRAME + slot r) = m.reg r := by
  obtain ⟨mem, he, hm⟩ := @stores (({ m with sscratch := m.reg a0 } : Hart).set a0
    (BitVec.ofNat 64 TRAPFRAME)) saved rfl
  unfold uservec
  dsimp only
  rw [he]
  refine ⟨rfl, rfl, rfl, rfl, fun r hr => ?_⟩
  show update mem (TRAPFRAME + slot a0) (m.reg a0) (TRAPFRAME + slot r) = _
  by_cases ha : r = a0
  · subst ha
    exact update_self ..
  · rw [update_of_ne (place_ne ha), hm r, if_pos (mem_saved.2 ⟨hr, ha⟩)]
    exact update_of_ne ha ..

theorem userret_spec (m : Hart) : (userret m).fcsr = m.fcsr ∧ (userret m).ssp = m.ssp ∧
    (userret m).pc = m.sepc ∧ (userret m).elp = m.sstatus.getLsbD SPELP ∧
    ∀ r, r ≠ .x 0 → (userret m).reg r = m.mem (TRAPFRAME + slot r) := by
  have he := @loads (({ m with satp := m.reg a0 } : Hart).set a0 (BitVec.ofNat 64 TRAPFRAME))
    saved rfl fun h => (mem_saved.1 h).2 rfl
  unfold userret
  dsimp only
  rw [he]
  refine ⟨rfl, rfl, rfl, rfl, fun r hr => ?_⟩
  show update (_ : Reg → Word) a0 (m.mem (TRAPFRAME + slot a0)) r = _
  by_cases ha : r = a0
  · subst ha
    exact update_self ..
  · rw [update_of_ne ha]
    exact if_pos (mem_saved.2 ⟨hr, ha⟩)

theorem enter_spec (c : Board) (kernelvec : Word) (m : Hart) :
    ∃ m', usertrap c kernelvec false (uservec m.interrupt) = some m' ∧ Saved c m m'.mem := by
  obtain ⟨hst, hsc, hepc, hssp, hreg⟩ := uservec_spec m.interrupt
  generalize uservec m.interrupt = u at *
  have hspp : u.sstatus.getLsbD SPP = false := by
    rw [hst]
    simp only [Hart.interrupt, getLsbD_writeBit _ (show SPP < 64 by decide)]
    rfl
  have help : u.sstatus.getLsbD SPELP = m.elp := by
    rw [hst]
    simp only [Hart.interrupt, getLsbD_writeBit _ (show SPELP < 64 by decide)]
    rfl
  have hto : ¬(u.scause = 8 ∨ false = true ∨ devintr u.scause ≠ 2) := by
    rw [hsc]
    exact (by decide : ¬(0x8000000000000005#64 = 8 ∨ false = true ∨ devintr 0x8000000000000005 ≠ 2))
  have hge := tfSsp_ge c
  refine ⟨_, (if_neg (by simp [hspp])).trans (if_neg hto), fun r hr => ?_, ?_, fun h => ?_, fun h => ?_⟩
  · have := slot_bounds hr
    rw [put_mem (by omega), put_mem (by omega), put_mem (by omega)]
    exact hreg r hr
  · exact (put_self rfl).trans hepc
  · exact ((put_mem (by omega)).trans (put_self h)).trans hssp
  · have : tfSsp c = 560 := if_pos h
    rw [put_mem (by decide), put_mem (by omega), put_self h, ← help]
    simp [SPELP]

theorem leave_spec {c : Board} {h : Hart} (hs : Saved c m h.mem) (uvec kstack utrap satp : Word) :
    Same c m (userret (usertrapret c uvec kstack utrap satp h)) ↔ h.fcsr = m.fcsr := by
  have hmem : ∀ off, off = 24 ∨ 40 ≤ off →
      (usertrapret c uvec kstack utrap satp h).mem (TRAPFRAME + off) = h.mem (TRAPFRAME + off) := by
    intro off ho
    show ((((Hart.put _ true 0 _).put true 8 _).put true 16 _).put true 32 _).mem _ = _
    rw [put_mem (by omega), put_mem (by omega), put_mem (by omega), put_mem (by omega)]
  have hge := tfSsp_ge c
  have hpc : (usertrapret c uvec kstack utrap satp h).sepc = m.pc := (hmem 24 (.inl rfl)).trans hs.pc
  have hssp : c.shadowStack = true → (usertrapret c uvec kstack utrap satp h).ssp = m.ssp := fun hc =>
    (if_pos hc).trans ((hmem _ (.inr (by omega))).trans (hs.ssp hc))
  have help : c.landingPad = true →
      (usertrapret c uvec kstack utrap satp h).sstatus.getLsbD SPELP = m.elp := by
    intro hc
    rw [← hs.elp hc, ← hmem 552 (.inr (by omega))]
    refine (congrArg (BitVec.getLsbD · SPELP) (if_pos hc)).trans ?_
    simp [SPELP]
    rfl
  obtain ⟨hfcsr, hssp', hpc', help', hreg⟩ := userret_spec (usertrapret c uvec kstack utrap satp h)
  refine ⟨fun hs => hfcsr.symm.trans hs.fcsr, fun hf => ⟨fun r hr => ?_, hfcsr.trans hf, hpc'.trans hpc,
    fun hc => hssp'.trans (hssp hc), fun hc => help'.trans (help hc)⟩⟩
  rw [hreg r hr, hmem _ (.inr (slot_bounds hr).1), hs.reg r hr]

/-- **A trap gives back all but `fcsr`.** -/
theorem trap_transparent_iff (c : Board) (kernelvec uvec kstack utrap satp : Word) (m : Hart) :
    ∃ m', usertrap c kernelvec false (uservec m.interrupt) = some m' ∧ ∀ h : Hart,
      (Same c m (userret (usertrapret c uvec kstack utrap satp { h with mem := m'.mem })) ↔
        h.fcsr = m.fcsr) := by
  obtain ⟨m', he, hs⟩ := enter_spec c kernelvec m
  exact ⟨m', he, fun h => leave_spec (h := { h with mem := m'.mem }) hs uvec kstack utrap satp⟩

end

def blank : Hart := ⟨fun _ => 0, 0, 0, 0, false, 0, 0, 0, 0, 0, 0, fun _ => 0⟩

/-- What it is given back when another process has set the rounding mode. -/
def leaked (m : Hart) : Hart := userret (usertrapret (.virt true true) 0 0 0 0 { m with fcsr := 0x20 })

theorem trap_leaks_fcsr : ∃ m, usertrap (.virt true true) 0 false (uservec blank.interrupt) = some m ∧
    blank.fcsr = 0 ∧ (leaked m).fcsr = 0x20 ∧ ¬Same (.virt true true) blank (leaked m) := by
  obtain ⟨m, he, -⟩ := enter_spec (.virt true true) 0 blank
  have hf : (leaked m).fcsr = 0x20 := (userret_spec _).1
  exact ⟨m, he, rfl, hf, fun h => absurd (hf.symm.trans h.fcsr) (by decide : (0x20 : BitVec 32) ≠ 0)⟩

end ZeptOS.Trap
