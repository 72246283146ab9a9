import Mathlib.Data.BitVec
import ZeptOS.Lib.Loop

/-!
# `printf`, in the kernel and for user programs

`kernel/printf.c` and `user/printf.c` scan a format the same way and differ in what they give to
`printint`: a `long long` in the kernel, an `int` in user programs. The scan is therefore one
function `format` of what prints an integer and of what prints the other conversions.

`buf` is the part of `char buf[16]` that has been filled. A store behind its end has no answer, and
neither has a `va_arg` without an argument. Arguments are the 64-bit slots of the calling
convention; `str` is the string at an address. Arithmetic of doubles is that of the hardware:
`printdouble` is given what it makes of its argument (`User.Fpu`).

`pr.lock` is left out: nothing here is about two harts that print at once.
-/

namespace ZeptOS.Printf

open Lib

variable {w : Nat} {n : Int}

/-! ## `printint` -/

/-- `buf[i++] = c` -/
def push (buf : List Char) (c : Char) : Option (List Char) :=
  if buf.length < 16 then some (buf ++ [c]) else none

def digitRound (digits : List Char) (base : Nat) (s : Nat × List Char) :
    Option ((Nat × List Char) ⊕ List Char) := do
  let buf ← push s.2 (digits.getD (s.1 % base) '\x00')
  let x := s.1 / base
  pure (if x ≠ 0 then .inl (x, buf) else .inr buf)

/-- The characters `printint` prints. A seventeenth round of the loop would store behind the end of
    the buffer. -/
def printint {w : Nat} (digits : List Char) (xx : BitVec w) (base : Nat) (sign : Bool) :
    Option (List Char) := do
  let neg := sign && decide (xx.toInt < 0)
  let x := if neg then (-xx).toNat else xx.toNat
  let buf ← loop (digitRound digits base) 17 (x, [])
  let buf ← if neg then push buf '-' else pure buf
  pure buf.reverse

def printptrFrom (digits : List Char) (x : BitVec 64) : Nat → List Char
  | 0 => []
  | n + 1 => digits.getD (x >>> 60).toNat '\x00' :: printptrFrom digits (x <<< 4) n

def printptr (digits : List Char) (x : BitVec 64) : List Char :=
  '0' :: 'x' :: printptrFrom digits x 16

/-! ## The scan of the format -/

inductive Letter where
  | d | u | x
  deriving DecidableEq, Repr

/-- An integer conversion: how many times `l`, and the letter. -/
structure Conv where
  ls : Fin 3
  letter : Letter
  deriving DecidableEq, Repr

def Letter.char : Letter → Char
  | d => 'd'
  | u => 'u'
  | x => 'x'

def Letter.base : Letter → Nat
  | x => 16
  | _ => 10

def Letter.sign : Letter → Bool
  | d => true
  | _ => false

def Conv.text (cv : Conv) : List Char := '%' :: (List.replicate cv.ls 'l' ++ [cv.letter.char])

/-- The integer conversion that three characters begin with, in the order of the source. -/
def conversion (c0 c1 c2 : Char) : Option Conv :=
  if c0 = 'd' then some ⟨0, .d⟩
  else if c0 = 'l' ∧ c1 = 'd' then some ⟨1, .d⟩
  else if c0 = 'l' ∧ c1 = 'l' ∧ c2 = 'd' then some ⟨2, .d⟩
  else if c0 = 'u' then some ⟨0, .u⟩
  else if c0 = 'l' ∧ c1 = 'u' then some ⟨1, .u⟩
  else if c0 = 'l' ∧ c1 = 'l' ∧ c2 = 'u' then some ⟨2, .u⟩
  else if c0 = 'x' then some ⟨0, .x⟩
  else if c0 = 'l' ∧ c1 = 'x' then some ⟨1, .x⟩
  else if c0 = 'l' ∧ c1 = 'l' ∧ c2 = 'x' then some ⟨2, .x⟩
  else none

def format (int : Conv → BitVec 64 → Option (List Char))
    (other : Char → Option (BitVec 64 → Option (List Char))) :
    List Char → List (BitVec 64) → Option (List Char)
  | [], _ => some []
  | cx :: fmt, ap =>
    if cx ≠ '%' then (format int other fmt ap).map (cx :: ·)
    else
      match fmt with
      | [] => some []
      | c0 :: fmt =>
        match conversion c0 (fmt.getD 0 '\x00') (fmt.getD 1 '\x00'), other c0, ap with
        | some cv, _, v :: ap => do
          let s ← int cv v
          (format int other (fmt.drop cv.ls) ap).map (s ++ ·)
        | none, some f, v :: ap => do
          let s ← f v
          (format int other fmt ap).map (s ++ ·)
        | none, none, ap =>
          if c0 = '%' then (format int other fmt ap).map ('%' :: ·)
          else (format int other fmt ap).map ('%' :: c0 :: ·)
        | _, _, [] => none
termination_by fmt => fmt.length
decreasing_by
  all_goals
    simp only [List.length_cons, List.length_drop]
    omega

/-- `va_arg(ap, int)` -/
def vaInt (v : BitVec 64) : BitVec 32 := v.setWidth 32

/-- What `%s` prints: the string, or `(null)` for a null pointer. -/
def string (str : BitVec 64 → List Char) (v : BitVec 64) : List Char :=
  if v = 0 then "(null)".toList else str v

namespace Kernel

def digits : List Char := "0123456789abcdef".toList

/-- The conversion of an integer: `printint` has a `long long`. -/
def int (cv : Conv) (v : BitVec 64) : Option (List Char) :=
  printint digits (if cv.ls = 0 then (vaInt v).signExtend 64 else v) cv.letter.base cv.letter.sign

def printf (str : BitVec 64 → List Char) : List Char → List (BitVec 64) → Option (List Char) :=
  format int fun c0 =>
    if c0 = 'p' then some fun v => printptr digits v
    else if c0 = 's' then some fun v => string str v
    else none

end Kernel

namespace User

def digits : List Char := "0123456789ABCDEF".toList

/-- The conversion of an integer: `printint` has an `int`. -/
def int (cv : Conv) (v : BitVec 64) : Option (List Char) :=
  printint digits (vaInt v) cv.letter.base cv.letter.sign

/-- What the floating-point unit makes of the bits of a `double`: `(int)x`, and
    `(int)((x - int_part) * 1000)`. -/
structure Fpu where
  intPart : BitVec 64 → BitVec 32
  fracPart : BitVec 64 → BitVec 32

def printdouble (fpu : Fpu) (x : BitVec 64) : Option (List Char) := do
  let int_part ← printint digits (fpu.intPart x) 10 false
  let frac_part ← printint digits (fpu.fracPart x) 10 false
  pure (int_part ++ '.' :: frac_part)

def vprintf (str : BitVec 64 → List Char) (fpu : Fpu) : List Char → List (BitVec 64) → Option (List Char) :=
  format int fun c0 =>
    if c0 = 'p' then some fun v => printptr digits v
    else if c0 = 'f' then some (printdouble fpu)
    else if c0 = 's' then some fun v => string str v
    else none

end User

/-!
## Which integers are printed as they are

A conversion prints an integer right when `printint` is given that integer and its numeral fits the
sixteen bytes of `buf`. In the kernel the second fails for large 64-bit values, and the first for
`%u` and `%x`, whose argument is taken as an `int` and widened with its sign. In user programs the
numeral of an `int` always fits, but 64-bit values lose their upper half.
-/

/-- The numeral of an integer: a sign for a negative one and the digits without leading zeros.
    `letters` is the case of the digits above nine. -/
def numeral (letters : Char → Char) (base : Nat) (n : Int) : List Char :=
  (if n < 0 then ['-'] else []) ++ (Nat.toDigits base n.natAbs).map letters

def Conv.value (cv : Conv) (v : BitVec 64) : Int :=
  match cv.letter with
  | .d => if cv.ls = 0 then (vaInt v).toInt else v.toInt
  | _ => if cv.ls = 0 then (vaInt v).toNat else v.toNat

/-! ### The loop over the digits -/

section

variable {digits : List Char} {letters : Char → Char} {base : Nat}

theorem loop_digits (hb : 1 < base)
    (hd : ∀ d < base, digits.getD d '\x00' = letters (Nat.digitChar d)) :
    ∀ {fuel x : Nat} {buf : List Char}, buf.length + fuel = 17 →
    loop (digitRound digits base) fuel (x, buf) =
      if buf.length + (Nat.toDigits base x).length ≤ 16 then
        some (buf ++ ((Nat.toDigits base x).map letters).reverse) else none := by
  intro fuel
  induction fuel with
  | zero =>
    intro x buf h
    rw [if_neg (by omega)]
    rfl
  | succ fuel ih =>
    intro x buf h
    have hpos := @Nat.length_toDigits_pos base x
    simp only [loop, digitRound, push]
    by_cases hlen : buf.length < 16
    · rw [if_pos hlen]
      simp only [Option.bind_eq_bind, Option.bind_some, Option.pure_def,
        hd _ (Nat.mod_lt x (by omega))]
      rcases Nat.lt_or_ge x base with hx | hx
      · have hroom : buf.length + 1 ≤ 16 := hlen
        rw [Nat.toDigits_of_lt_base hx, Nat.div_eq_of_lt hx, Nat.mod_eq_of_lt hx,
          if_neg (not_not.mpr rfl)]
        simp [hroom]
      · have hne : x / base ≠ 0 := Nat.ne_of_gt (Nat.div_pos hx (by omega))
        rw [if_pos hne, Nat.toDigits_of_base_le hb hx]
        dsimp only
        rw [ih (by simp; omega)]
        simp only [List.length_append, List.length_singleton, List.map_append, List.map_singleton,
          List.reverse_append, List.reverse_singleton, List.append_assoc, Nat.add_assoc,
          Nat.add_comm 1]
    · rw [if_neg hlen, if_neg (by omega)]
      rfl

theorem printint_abs (xx : BitVec w) (sign : Bool) (hn : n = if sign then xx.toInt else xx.toNat) :
    (sign && decide (xx.toInt < 0)) = decide (n < 0) ∧
      (if decide (n < 0) = true then (-xx).toNat else xx.toNat) = n.natAbs := by
  cases sign with
  | false =>
    obtain rfl : n = xx.toNat := hn
    have hnot : ¬ (xx.toNat : Int) < 0 := by omega
    simp [hnot]
  | true =>
    obtain rfl : n = xx.toInt := hn
    refine ⟨Bool.true_and _, ?_⟩
    have hlt := xx.isLt
    rw [BitVec.toInt_eq_toNat_cond, BitVec.toNat_neg]
    split
    · rw [if_neg (by simp)]
      rfl
    · rw [if_pos (decide_eq_true (by omega)), Nat.mod_eq_of_lt (by omega)]
      omega

/-- **What `printint` prints**: the numeral of its argument, if it fits the buffer. -/
theorem printint_eq (hb : 1 < base)
    (hd : ∀ d < base, digits.getD d '\x00' = letters (Nat.digitChar d)) (xx : BitVec w)
    (sign : Bool) (hn : n = if sign then xx.toInt else xx.toNat) :
    printint digits xx base sign =
      if (numeral letters base n).length ≤ 16 then some (numeral letters base n) else none := by
  obtain ⟨hneg, hx⟩ := printint_abs xx sign hn
  unfold printint
  dsimp only
  rw [hneg, hx, loop_digits hb hd rfl]
  by_cases h0 : n < 0
  · simp only [numeral, h0, if_true, decide_true, push, List.length_append, List.length_map,
      List.length_singleton, List.length_nil, List.nil_append, Nat.zero_add]
    split
    · simp only [Option.bind_eq_bind, Option.bind_some, List.length_reverse, List.length_map]
      split
      · rw [if_pos (by omega)]
        simp
      · rw [if_neg (by omega)]
        rfl
    · rw [if_neg (by omega)]
      rfl
  · simp only [numeral, h0, if_false, decide_false, List.nil_append, List.length_map,
      List.length_nil, Nat.zero_add, Bool.false_eq_true]
    split <;> simp

/-! ### Numerals -/

/-- A digit table with sixteen different characters, none of them the sign. -/
structure Table (digits : List Char) (letters : Char → Char) : Prop where
  digit : ∀ d < 16, digits.getD d '\x00' = letters (Nat.digitChar d)
  inj : ∀ d < 16, ∀ e < 16, letters (Nat.digitChar d) = letters (Nat.digitChar e) → d = e
  unsigned : ∀ d < 16, letters (Nat.digitChar d) ≠ '-'

theorem toDigits_inj (T : Table digits letters) (hb : 1 < base) (hb' : base ≤ 16) : ∀ {n m : Nat},
    (Nat.toDigits base n).map letters = (Nat.toDigits base m).map letters → n = m := by
  have hlast (n : Nat) : ∃ cs, Nat.toDigits base n = cs ++ [Nat.digitChar (n % base)] ∧
      (cs = [] ↔ n < base) ∧ (base ≤ n → cs = Nat.toDigits base (n / base)) := by
    rcases Nat.lt_or_ge n base with h | h
    · exact ⟨[], by rw [Nat.toDigits_of_lt_base h, Nat.mod_eq_of_lt h]; rfl, by simp [h], by omega⟩
    · refine ⟨_, Nat.toDigits_of_base_le hb h, ?_, fun _ => rfl⟩
      have := @Nat.length_toDigits_pos base (n / base)
      exact ⟨fun h0 => by simp [h0] at this, by omega⟩
  intro n
  induction n using Nat.strongRecOn with
  | _ n ih =>
    intro m h
    obtain ⟨cs, hn, hn0, hnq⟩ := hlast n
    obtain ⟨cs', hm, hm0, hmq⟩ := hlast m
    rw [hn, hm, List.map_append, List.map_append, List.map_singleton, List.map_singleton] at h
    obtain ⟨hcs, hc⟩ := List.append_inj' h rfl
    have hmod := T.inj _ (by have := Nat.mod_lt n (show 0 < base by omega); omega) _
      (by have := Nat.mod_lt m (show 0 < base by omega); omega) (List.singleton_inj.mp hc)
    have hdiv : n / base = m / base := by
      rcases Nat.lt_or_ge n base with hlt | hge
      · obtain rfl := hn0.mpr hlt
        have hlt' := hm0.mp (List.map_eq_nil_iff.mp hcs.symm)
        rw [Nat.div_eq_of_lt hlt, Nat.div_eq_of_lt hlt']
      · have hge' : base ≤ m := by
          by_contra hlt'
          obtain rfl := hm0.mpr (by omega)
          have := hn0.mp (List.map_eq_nil_iff.mp hcs)
          omega
        rw [hnq hge, hmq hge'] at hcs
        exact ih _ (Nat.div_lt_self (by omega) hb) hcs
    rw [← Nat.div_add_mod n base, ← Nat.div_add_mod m base, hmod, hdiv]

theorem mem_toDigits (hb : 1 < base) : ∀ {n : Nat} {c : Char}, c ∈ Nat.toDigits base n →
    ∃ d < base, c = Nat.digitChar d := by
  intro n
  induction n using Nat.strongRecOn with
  | _ n ih =>
    intro c hc
    rcases Nat.lt_or_ge n base with h | h
    · rw [Nat.toDigits_of_lt_base h, List.mem_singleton] at hc
      exact ⟨n, h, hc⟩
    · rw [Nat.toDigits_of_base_le hb h, List.mem_append, List.mem_singleton] at hc
      rcases hc with hc | hc
      · exact ih _ (Nat.div_lt_self (by omega) hb) hc
      · exact ⟨_, Nat.mod_lt n (by omega), hc⟩

theorem numeral_inj (T : Table digits letters) (hb : 1 < base) (hb' : base ≤ 16) {m : Int} :
    numeral letters base n = numeral letters base m ↔ n = m := by
  refine ⟨fun h => ?_, fun h => h ▸ rfl⟩
  have hno (k : Nat) : '-' ∉ (Nat.toDigits base k).map letters := by
    intro hk
    obtain ⟨c, hc, he⟩ := List.mem_map.mp hk
    obtain ⟨d, hd, rfl⟩ := mem_toDigits hb hc
    exact T.unsigned d (by omega) he
  unfold numeral at h
  by_cases hn : n < 0 <;> by_cases hm : m < 0 <;>
    simp only [hn, hm, if_true, if_false, List.nil_append, List.singleton_append] at h
  · have := toDigits_inj T hb hb' (List.cons.inj h).2
    omega
  · exact absurd (h ▸ List.mem_cons_self) (hno m.natAbs)
  · exact absurd (h ▸ List.mem_cons_self) (hno n.natAbs)
  · have := toDigits_inj T hb hb' h
    omega

theorem numeral_fits (hb : 1 < base) :
    (numeral letters base n).length ≤ 16 ↔ -(base ^ 15 : Nat) < n ∧ n < (base ^ 16 : Nat) := by
  have h15 := @Nat.length_toDigits_le_iff base n.natAbs 15 hb (by omega)
  have h16 := @Nat.length_toDigits_le_iff base n.natAbs 16 hb (by omega)
  have hpos : 0 < base ^ 15 := Nat.pow_pos (by omega)
  unfold numeral
  split
  · rw [List.length_append, List.length_map, List.length_singleton]
    omega
  · rw [List.nil_append, List.length_map]
    omega

/-- **When `printint` prints a numeral**: it was given that integer, and the buffer has room. -/
theorem printint_eq_numeral_iff (T : Table digits letters) (hb : 1 < base) (hb' : base ≤ 16)
    {xx : BitVec w} {sign : Bool} {k : Int} (hn : n = if sign then xx.toInt else xx.toNat) :
    printint digits xx base sign = some (numeral letters base k) ↔
      n = k ∧ -(base ^ 15 : Nat) < k ∧ k < (base ^ 16 : Nat) := by
  rw [printint_eq hb (fun d hd => T.digit d (by omega)) xx sign hn,
    ← @numeral_fits k letters base hb]
  constructor
  · intro h
    split at h
    · obtain rfl := (numeral_inj T hb hb').mp (Option.some.inj h)
      exact ⟨rfl, ‹_›⟩
    · exact nomatch h
  · rintro ⟨rfl, h⟩
    rw [if_pos h]

end

/-! ### The scan -/

theorem format_conv (int : Conv → BitVec 64 → Option (List Char))
    (other : Char → Option (BitVec 64 → Option (List Char))) (cv : Conv) (v : BitVec 64) (rest : List Char)
    (ap : List (BitVec 64)) : format int other (cv.text ++ rest) (v :: ap) =
      (int cv v).bind fun s => (format int other rest ap).map (s ++ ·) := by
  obtain ⟨ls, letter⟩ := cv
  match ls with
  | 0 | 1 | 2 => cases letter <;> simp [Conv.text, format, conversion, Letter.char]

/-- Wherever a conversion stands in a format, it prints this and the rest is printed as ever. -/
def Prints (printf : List Char → List (BitVec 64) → Option (List Char)) (cv : Conv) (v : BitVec 64)
    (s : List Char) : Prop :=
  ∀ rest ap, printf (cv.text ++ rest) (v :: ap) = (printf rest ap).map (s ++ ·)

theorem prints_format_iff {int : Conv → BitVec 64 → Option (List Char)}
    {other : Char → Option (BitVec 64 → Option (List Char))} {cv : Conv} {v : BitVec 64} {s : List Char} :
    Prints (format int other) cv v s ↔ int cv v = some s := by
  constructor
  · intro h
    have := h [] []
    rw [format_conv] at this
    cases hs : int cv v with
    | none => simp [hs, format] at this
    | some s' => simpa [hs, format] using this
  · intro h rest ap
    rw [format_conv, h, Option.bind_some]

/-! ### Which values are printed -/

theorem Letter.base_bounds (l : Letter) : 1 < l.base ∧ l.base ≤ 16 := by
  cases l <;> decide

theorem kernel_table : Table Kernel.digits id := by
  constructor <;> decide

theorem user_table : Table User.digits Char.toUpper := by
  constructor <;> decide

/-- Where the kernel's conversions are right: `%u` and `%x` below `2^31`, and `%ld` and `%lu` where
    the numeral has at most sixteen characters. -/
def Conv.FitsKernel (cv : Conv) (v : BitVec 64) : Prop :=
  match cv.letter with
  | .d => cv.ls = 0 ∨ (-10 ^ 15 < cv.value v ∧ cv.value v < 10 ^ 16)
  | .u => cv.value v < if cv.ls = 0 then 2 ^ 31 else 10 ^ 16
  | .x => cv.ls = 0 → cv.value v < 2 ^ 31

theorem signExtend_values (x : BitVec 32) : (x.signExtend 64).toInt = x.toInt ∧
    ((x.signExtend 64).toNat = x.toNat ↔ x.toNat < 2 ^ 31) := by
  refine ⟨BitVec.toInt_signExtend_of_le (by omega), ?_⟩
  have hx := x.isLt
  have hmsb : x.msb = decide (2 ^ 31 ≤ x.toNat) := BitVec.msb_eq_decide x
  rw [BitVec.toNat_signExtend, BitVec.toNat_setWidth, Nat.mod_eq_of_lt (by omega), hmsb]
  simp

/-- **The kernel's `printf` prints an integer right exactly when it fits.** -/
theorem kernel_prints_iff (str : BitVec 64 → List Char) (cv : Conv) (v : BitVec 64) :
    Prints (Kernel.printf str) cv v (numeral id cv.letter.base (cv.value v)) ↔ cv.FitsKernel v := by
  obtain ⟨hb, hb'⟩ := cv.letter.base_bounds
  unfold Kernel.printf
  rw [prints_format_iff, Kernel.int, printint_eq_numeral_iff kernel_table hb hb' rfl]
  obtain ⟨hint, hnat⟩ := signExtend_values (vaInt v)
  have hv := v.isLt
  have h32 := (vaInt v).isLt
  obtain ⟨ls, letter⟩ := cv
  have hlow := (vaInt v).le_toInt
  have hhigh := (vaInt v).toInt_lt
  cases letter <;> by_cases hl : ls = 0 <;>
    simp only [Conv.FitsKernel, Conv.value, Letter.sign, Letter.base, hl, if_true, if_false,
      Bool.false_eq_true, true_or, false_or, forall_const, false_implies, true_and, iff_true,
      hint] <;>
    omega

/-- **`%lu` of `10^16` overruns the buffer, and `%x` of `0x80000000` prints eight digits too many.** -/
theorem kernel_prints_wrong : Kernel.printf (fun _ => []) ['%', 'l', 'u'] [10 ^ 16] = none ∧
      Kernel.printf (fun _ => []) ['%', 'x'] [0x80000000] = some "ffffffff80000000".toList := by
  have hu : Kernel.int ⟨1, .u⟩ (10 ^ 16) = none := by decide
  have hx : Kernel.int ⟨0, .x⟩ 0x80000000 = some "ffffffff80000000".toList := by decide
  constructor
  · refine (format_conv _ _ ⟨1, .u⟩ _ [] []).trans ?_
    rw [hu]
    rfl
  · refine (format_conv _ _ ⟨0, .x⟩ _ [] []).trans ?_
    rw [hx, format]
    rfl

/-- Where the conversions of user programs are right: 64-bit forms where 32 bits hold the value. -/
def Conv.FitsUser (cv : Conv) (v : BitVec 64) : Prop :=
  cv.ls = 0 ∨
    match cv.letter with
    | .d => -2 ^ 31 ≤ cv.value v ∧ cv.value v < 2 ^ 31
    | _ => cv.value v < 2 ^ 32

/-- **The `printf` of user programs prints an integer right exactly when 32 bits hold it.** -/
theorem user_prints_iff (str : BitVec 64 → List Char) (fpu : User.Fpu) (cv : Conv) (v : BitVec 64) :
    Prints (User.vprintf str fpu) cv v
      (numeral Char.toUpper cv.letter.base (cv.value v)) ↔ cv.FitsUser v := by
  obtain ⟨hb, hb'⟩ := cv.letter.base_bounds
  unfold User.vprintf
  rw [prints_format_iff, User.int, printint_eq_numeral_iff user_table hb hb' rfl]
  have hv := v.isLt
  have h32 : (vaInt v).toNat = v.toNat % 2 ^ 32 := BitVec.toNat_setWidth 32 v
  have hint := BitVec.toInt_eq_toNat_cond (vaInt v)
  have hint' := BitVec.toInt_eq_toNat_cond v
  obtain ⟨ls, letter⟩ := cv
  cases letter <;> by_cases hl : ls = 0 <;>
    simp only [Conv.FitsUser, Conv.value, Letter.sign, Letter.base, hl, if_true, if_false,
      Bool.false_eq_true, true_or, false_or, true_and, iff_true] <;>
    omega

/-- **`%lu` of `2^32` prints `0`.** -/
theorem user_prints_wrong :
    User.vprintf (fun _ => []) ⟨fun _ => 0, fun _ => 0⟩ ['%', 'l', 'u'] [2 ^ 32] = some ['0'] := by
  have hu : User.int ⟨1, .u⟩ (2 ^ 32) = some ['0'] := by decide
  refine (format_conv _ _ ⟨1, .u⟩ _ [] []).trans ?_
  rw [hu, format]
  rfl

end ZeptOS.Printf
