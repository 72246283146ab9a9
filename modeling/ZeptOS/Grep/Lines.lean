import ZeptOS.Grep.Match
import ZeptOS.Strings

/-!
# The lines of `grep`

`grep` reads into a buffer of 1024 bytes, prints the complete lines that match and moves what is left
to the front. Whatever the chunks are in which the input comes, what the buffer carries over is the
beginning of the first line that is not finished (`Carried`), so the chunks do not show in the output.
A line of 1023 bytes fills the buffer: `read` is then asked for nothing, its answer is taken for the
end of the input, and that line and all behind it are lost.

Printing is taken to succeed, and what is printed is a list of bytes.
-/

namespace ZeptOS.Grep

open Lib Function

variable {buf fuel : Nat} {p w : List UInt8} {x : Pass}

abbrev LF : UInt8 := 0x0a
abbrev BUFSZ : Nat := 1024

/-! ## The source -/

/-- `strchr(s, c)`, where 0 is the null pointer. -/
def strchr (m : Bytes) (c : UInt8) : Nat → Nat → Option Nat :=
  loop fun s => some (if m s = 0 then .inr 0 else if m s = c then .inr s else .inl (s + 1))

/-- A round of the inner loop of `grep`: the memory, `p` and what has been written. -/
def lineRound (fuel re : Nat) (x : Bytes × Nat × List UInt8) :
    Option ((Bytes × Nat × List UInt8) ⊕ (Bytes × Nat × List UInt8)) := do
  let (m, p, out) := x
  let q ← strchr m LF fuel p
  if q = 0 then pure (.inr x)
  else
    let m : Bytes := Function.update m q 0
    if ← match_ m fuel re p then
      let m : Bytes := Function.update m q LF
      pure (.inl (m, q + 1, out ++ m.slice p (q + 1 - p)))
    else pure (.inl (m, q + 1, out))

/-- What the outer loop works on: the memory, the bytes in the buffer, the rest of the input, the
reads so far, and what has been written. -/
structure Pass where
  mem : Bytes
  m : Nat
  rest : List UInt8
  reads : Nat
  out : List UInt8

/-- The answer of `read(fd, buf+m, sizeof(buf)-m-1)`: as much as was asked for, or less if that is how
the input comes, but something if there is something. -/
def Pass.read (ω : Nat → Nat) (x : Pass) : Nat :=
  min (BUFSZ - x.m - 1) (min (ω x.reads + 1) x.rest.length)

def grepRound (ω : Nat → Nat) (fuel re buf : Nat) (x : Pass) : Option (Pass ⊕ List UInt8) := do
  let n := x.read ω
  if n = 0 then pure (.inr x.out)
  else
    let m := x.m + n
    let mem : Bytes := Function.update (x.mem.blit (buf + x.m) (x.rest.take n)) (buf + m) 0
    let (mem, p, out) ← loop (lineRound fuel re) fuel (mem, buf, x.out)
    if 0 < m then
      let m := m - (p - buf)
      -- `memmove(buf, p, m)`
      pure (.inl ⟨mem.blit buf (mem.slice p m), m, x.rest.drop n, x.reads + 1, out⟩)
    else pure (.inl ⟨mem, m, x.rest.drop n, x.reads + 1, out⟩)

/-- What `grep(pattern, fd)` writes, for an input that comes in chunks of at most `ω i + 1` bytes. -/
def grep (ω : Nat → Nat) (fuel : Nat) (mem : Bytes) (re buf : Nat) (input : List UInt8) :
    Option (List UInt8) :=
  loop (grepRound ω fuel re buf) fuel ⟨mem, 0, input, 0, []⟩

/-- The move of `grepRound` is the user library's `memmove`, at addresses of 64 bits. -/
theorem ulib_memmove_eq_blit (m : Bytes) {dst src n : Nat} (hn : n < 2 ^ 31) (hd : dst + n < 2 ^ 64)
    (hs : src + n < 2 ^ 64) (a : Strings.Ptr) :
    Strings.Ulib.memmove (fun a => m a.toNat) (.ofNat 64 dst) (.ofNat 64 src) (.ofNat 32 n) a =
      m.blit dst (m.slice src n) a.toNat := by
  have ha := a.isLt
  have hlen : (BitVec.ofNat 32 n).toNat = n := by
    rw [BitVec.toNat_ofNat]
    omega
  have hdst : (BitVec.ofNat 64 dst).toNat = dst := by
    rw [BitVec.toNat_ofNat]
    omega
  have hsrc : (BitVec.ofNat 64 src).toNat = src := by
    rw [BitVec.toNat_ofNat]
    omega
  rw [Strings.Ulib.memmove_eq _ (by omega) (by omega) (by rw [BitVec.toInt_eq_toNat_cond]; omega), hlen,
    Bytes.blit_slice]
  unfold Strings.moved
  simp only [BitVec.toNat_add, BitVec.toNat_sub, hdst, hsrc]
  by_cases hin : dst ≤ a.toNat ∧ a.toNat < dst + n
  · rw [if_pos hin, if_pos (by omega)]
    congr 1
    omega
  · rw [if_neg hin, if_neg (by omega)]

/-! ## Lines -/

def unlines (ls : List (List UInt8)) : List UInt8 := (ls.map (· ++ [LF])).flatten

theorem unlines_cons (l : List UInt8) (ls : List (List UInt8)) :
    unlines (l :: ls) = l ++ LF :: unlines ls := by
  simp [unlines]

theorem unlines_append (ls ls' : List (List UInt8)) : unlines (ls ++ ls') = unlines ls ++ unlines ls' := by
  simp [unlines]

variable {ls : List (List UInt8)}

theorem unlines_eq_nil : unlines ls = [] ↔ ls = [] := by
  cases ls <;> simp [unlines]

/-- What `match` answers for a pattern and a line that stand one behind the other. -/
def hits (p l : List UInt8) : Bool :=
  match_ (((Bytes.fill 0).blit 0 p).blit (p.length + 1) l) (p.length + l.length + 1) 0 (p.length + 1) =
    some true

def short (l : List UInt8) : Bool := l.length < BUFSZ - 1

theorem unlines_cut : ∀ {L : List (List UInt8)} {w r : List UInt8}, (∀ l ∈ L, LF ∉ l) →
    w ++ r = unlines L → ∃ D L' part, L = D ++ L' ∧ w = unlines D ++ part ∧ LF ∉ part ∧
      part ++ r = unlines L' := by
  intro L
  induction L with
  | nil =>
    intro w r _ h
    obtain ⟨rfl, rfl⟩ := List.append_eq_nil_iff.mp h
    exact ⟨[], [], [], rfl, rfl, by simp, rfl⟩
  | cons l L ih =>
    intro w r hL h
    have hl : LF ∉ l := hL l List.mem_cons_self
    rw [unlines_cons] at h
    rcases List.append_eq_append_iff.mp h with ⟨a, rfl, hr⟩ | ⟨c, rfl, hc⟩
    · refine ⟨[], (w ++ a) :: L, w, rfl, rfl, fun hw => hl (by simp [hw]), ?_⟩
      rw [unlines_cons, hr, List.append_assoc]
    · cases c with
      | nil =>
        refine ⟨[], l :: L, l, rfl, by simp [unlines], hl, ?_⟩
        rw [unlines_cons]
        simpa using hc.symm
      | cons x c =>
        obtain ⟨rfl, htail⟩ := List.cons.inj hc
        obtain ⟨D, L', part, rfl, rfl, hpart, hr⟩ :=
          ih (fun l hl => hL l (List.mem_cons_of_mem _ hl)) htail.symm
        refine ⟨l :: D, L', part, rfl, ?_, hpart, hr⟩
        rw [unlines_cons, List.append_assoc, List.cons_append]

/-! ## One line -/

variable {l : List UInt8}

section

variable {re : Nat} {m : Bytes}

theorem match_eq_hits {text : Nat} (hp : m.Str re p) (hl : m.Str text l)
    (hf : p.length + l.length < fuel) : match_ m fuel re text = some (hits p l) := by
  obtain ⟨hp0, -⟩ := Bytes.str_iff.mp hp
  obtain ⟨hl0, -⟩ := Bytes.str_iff.mp hl
  have hpat : ((Bytes.fill 0).blit 0 p).Str 0 p :=
    Bytes.str_iff.mpr ⟨hp0, Bytes.slice_blit _ _ _, Bytes.blit_of_not (.inr (by omega))⟩
  have hpat' : (((Bytes.fill 0).blit 0 p).blit (p.length + 1) l).Str 0 p :=
    hpat.congr fun k _ hk => Bytes.blit_of_not (.inl (by omega))
  have hline : (((Bytes.fill 0).blit 0 p).blit (p.length + 1) l).Str (p.length + 1) l := by
    refine Bytes.str_iff.mpr ⟨hl0, Bytes.slice_blit _ _ _, ?_⟩
    rw [Bytes.blit_of_not (.inr le_rfl), Bytes.blit_of_not (.inr (by omega))]
    rfl
  obtain ⟨b, hb, hbF⟩ := decides_match hp hl hf
  obtain ⟨b', hb', hbF'⟩ := decides_match hpat' hline (Nat.lt_succ_self _)
  have hsame : b = b' := by rw [Bool.eq_iff_iff, hbF, hbF']
  rw [hb, hits, hb', hsame]
  simp

theorem strchr_skip : ∀ {s fuel : Nat}, m.Str s (l ++ w) → LF ∉ l →
    strchr m LF (l.length + fuel) s = strchr m LF fuel (s + l.length) := by
  induction l with
  | nil => intro s fuel _ _; simp
  | cons c l ih =>
    rintro s fuel ⟨hs, hc, hrest⟩ hl
    obtain ⟨hne, hl⟩ : c ≠ LF ∧ LF ∉ l := by simpa [eq_comm] using hl
    have hstep : strchr m LF (l.length + fuel + 1) s = strchr m LF (l.length + fuel) (s + 1) := by
      simp only [strchr, loop, hs, if_neg hc, if_neg hne]
    rw [List.length_cons, Nat.add_right_comm, hstep, ih hrest hl, Nat.add_right_comm, Nat.add_assoc]

/-- **A line is taken**: it is written if it matches, and only its end is touched. -/
theorem lineRound_line {pos : Nat} (out : List UInt8) (hp : m.Str re p)
    (hw : m.Str pos (l ++ LF :: w)) (hl : LF ∉ l) (hpos : 0 < pos)
    (hapart : pos + l.length < re ∨ re + p.length < pos + l.length)
    (hf : p.length + l.length < fuel) : ∃ m', lineRound fuel re (m, pos, out) =
      some (.inl (m', pos + l.length + 1, out ++ if hits p l then l ++ [LF] else [])) ∧
      ∀ k, k ≠ pos + l.length → m' k = m k := by
  obtain ⟨hat, -, -⟩ := hw.of_append
  have hq : strchr m LF fuel pos = some (pos + l.length) := by
    obtain ⟨n, rfl⟩ : ∃ n, fuel = l.length + (n + 1) := ⟨fuel - l.length - 1, by omega⟩
    rw [strchr_skip hw hl]
    simp only [strchr, loop, hat, if_neg (show LF ≠ 0 by decide), if_true]
  have hslice : m.slice pos (pos + l.length + 1 - pos) = l ++ [LF] := by
    have hline : m.Str pos (l ++ [LF] ++ w) := by simpa using hw
    have h := hline.slice_left
    rwa [List.length_append, List.length_singleton, ← Nat.add_sub_cancel_left (n := pos) (m := l.length + 1),
      ← Nat.add_assoc] at h
  have hcut : Bytes.Str (update m (pos + l.length) 0) pos l := by
    obtain ⟨h0, -, -⟩ := Bytes.str_iff.mp hw
    refine Bytes.str_iff.mpr ⟨fun h => h0 (List.mem_append_left _ h), ?_, update_self ..⟩
    refine (Bytes.slice_congr fun i hi => ?_).trans hw.slice_left
    exact update_of_ne (by omega) _ _
  have hmatch : match_ (update m (pos + l.length) 0) fuel re pos = some (hits p l) := by
    refine match_eq_hits (hp.congr fun k h1 h2 => ?_) hcut hf
    exact update_of_ne (by omega) _ _
  have hback : update (update m (pos + l.length) 0) (pos + l.length) LF = m := by
    rw [update_idem, ← hat, update_eq_self]
  have hq0 : pos + l.length ≠ 0 := by omega
  cases hh : hits p l with
  | true =>
    refine ⟨m, ?_, fun _ _ => rfl⟩
    simp only [lineRound, hq, Option.bind_eq_bind, Option.bind_some, if_neg hq0, hmatch, hh, if_true,
      hback, hslice, Option.pure_def]
  | false =>
    refine ⟨update m (pos + l.length) 0, ?_, fun k hk => update_of_ne hk _ _⟩
    simp only [lineRound, hq, Option.bind_eq_bind, Option.bind_some, if_neg hq0, hmatch, hh,
      Bool.false_eq_true, if_false, List.append_nil, Option.pure_def]

/-- **The lines in the buffer are taken**, and `p` is left at what follows them. -/
theorem lines_taken {part : List UInt8} (hls : ∀ l ∈ ls, LF ∉ l)
    (hpart : LF ∉ part) : ∀ {m : Bytes} {pos n : Nat} (out : List UInt8), m.Str re p →
    m.Str pos (unlines ls ++ part) → 0 < pos →
    (pos + (unlines ls).length ≤ re ∨ re + p.length < pos) →
    p.length + (unlines ls ++ part).length < fuel → ls.length < n →
    ∃ m', loop (lineRound fuel re) n (m, pos, out) =
      some (m', pos + (unlines ls).length, out ++ unlines (ls.filter (hits p))) ∧
      ∀ k, (k < pos ∨ pos + (unlines ls).length ≤ k) → m' k = m k := by
  induction ls with
  | nil =>
    intro m pos n out hp hw hpos hapart hf hn
    obtain ⟨n, rfl⟩ : ∃ k, n = k + 1 := ⟨n - 1, by simp at hn; omega⟩
    have hpart' : m.Str pos (part ++ []) := by simpa [unlines] using hw
    have hq : strchr m LF fuel pos = some 0 := by
      have hlen : part.length < fuel := by
        rw [List.length_append] at hf
        omega
      obtain ⟨k, rfl⟩ : ∃ k, fuel = part.length + (k + 1) := ⟨fuel - part.length - 1, by omega⟩
      have hz : m (pos + part.length) = 0 := hpart'.of_append
      rw [strchr_skip hpart' hpart]
      simp only [strchr, loop, hz, if_true]
    refine ⟨m, ?_, fun _ _ => rfl⟩
    simp [loop, lineRound, hq, unlines]
  | cons l ls ih =>
    intro m pos n out hp hw hpos hapart hf hn
    obtain ⟨n, rfl⟩ : ∃ k, n = k + 1 := ⟨n - 1, by simp at hn; omega⟩
    have hl : LF ∉ l := hls l List.mem_cons_self
    rw [unlines_cons] at hw hf hapart ⊢
    simp only [List.append_assoc, List.cons_append, List.length_append, List.length_cons] at hw hf hapart ⊢
    have hfl : p.length + l.length < fuel := by omega
    obtain ⟨m₁, hround, hsame⟩ := lineRound_line out hp hw hl hpos (by omega) hfl
    have hnext : m₁.Str (pos + l.length + 1) (unlines ls ++ part) :=
      hw.of_append.2.2.congr fun k hk _ => hsame k (by omega)
    obtain ⟨m₂, hloop, hsame'⟩ := ih (fun l hl => hls l (List.mem_cons_of_mem _ hl))
      _ (hp.congr fun k h1 h2 => hsame k (by omega)) hnext (Nat.succ_pos _) (by omega)
      (by rw [List.length_append]; omega) (Nat.lt_of_succ_lt_succ hn)
    refine ⟨m₂, ?_, fun k hk => (hsame' k (by omega)).trans (hsame k (by omega))⟩
    simp only [loop, hround]
    rw [hloop, List.filter_cons]
    cases hits p l <;> simp [unlines_cons, Nat.add_assoc, Nat.add_comm 1]

/-! ## The buffer -/

variable {ω : Nat → Nat} {L : List (List UInt8)}

/-- Before a read: the buffer has the beginning of the first of the lines `L` that are still to come,
and the pattern is outside of the buffer. -/
structure Carried (p : List UInt8) (re buf : Nat) (L : List (List UInt8)) (x : Pass) : Prop where
  pattern : x.mem.Str re p
  apart : buf + BUFSZ ≤ re ∨ re + p.length < buf
  pos : 0 < buf
  lines : ∀ l ∈ L, 0 ∉ l ∧ LF ∉ l
  room : x.m < BUFSZ
  open_ : LF ∉ x.mem.slice buf x.m
  input : x.mem.slice buf x.m ++ x.rest = unlines L

theorem zero_notMem_unlines (h : ∀ l ∈ L, 0 ∉ l ∧ LF ∉ l) : 0 ∉ unlines L := by
  intro h0
  obtain ⟨l, hl, hmem⟩ := List.mem_flatten.mp h0
  obtain ⟨l, hl', rfl⟩ := List.mem_map.mp hl
  rcases List.mem_append.mp hmem with h' | h'
  · exact (h l hl').1 h'
  · exact absurd (List.mem_singleton.mp h') (by decide)

/-- **A read that answers 0**: there is no line left, or one that does not fit. -/
theorem Carried.stuck (h : Carried p re buf L x) (h0 : x.read ω = 0) : L.takeWhile short = [] := by
  cases L with
  | nil => rfl
  | cons l L =>
    have hin := h.input
    rw [unlines_cons] at hin
    obtain ⟨a, hl⟩ : ∃ a, l = x.mem.slice buf x.m ++ a := by
      rcases List.append_eq_append_iff.mp hin with ⟨a, ha, -⟩ | ⟨c, hc, hrest⟩
      · exact ⟨a, ha⟩
      · cases c with
        | nil => exact ⟨[], by simpa using hc.symm⟩
        | cons y c =>
          obtain ⟨rfl, -⟩ := List.cons.inj hrest
          exact absurd (by rw [hc]; simp) h.open_
    have hlen := congrArg List.length hl
    have hall := congrArg List.length hin
    have hm := Bytes.length_slice x.mem buf x.m
    have hroom : x.m < 1024 := h.room
    have hread : min (1024 - x.m - 1) (min (ω x.reads + 1) x.rest.length) = 0 := h0
    simp only [List.length_append, List.length_cons] at hlen hall
    rw [List.takeWhile_cons_of_neg]
    show ¬decide (l.length < 1024 - 1) = true
    rw [decide_eq_true_iff]
    omega

theorem length_unlines (D : List (List UInt8)) :
    D.length ≤ (unlines D).length ∧ ∀ l ∈ D, l.length < (unlines D).length := by
  induction D with
  | nil => simp
  | cons l D ih =>
    rw [unlines_cons, List.length_append, List.length_cons, List.length_cons]
    refine ⟨by omega, fun l' hl' => ?_⟩
    rcases List.mem_cons.mp hl' with rfl | hl'
    · omega
    · have := ih.2 l' hl'
      omega

/-- **A round** takes some of the lines, and the rest is carried over. -/
theorem Carried.round (h : Carried p re buf L x) (h0 : x.read ω ≠ 0) (hf : p.length + BUFSZ < fuel) :
    ∃ D L' x', L = D ++ L' ∧ (∀ l ∈ D, short l = true) ∧
      grepRound ω fuel re buf x = some (.inl x') ∧ Carried p re buf L' x' ∧
      x'.out = x.out ++ unlines (D.filter (hits p)) ∧ x'.rest.length < x.rest.length := by
  have hread : x.read ω = min (1024 - x.m - 1) (min (ω x.reads + 1) x.rest.length) := rfl
  have hapart : buf + 1024 ≤ re ∨ re + p.length < buf := h.apart
  have hf' : p.length + 1024 < fuel := hf
  have hm := Bytes.length_slice x.mem buf x.m
  have htake : (x.rest.take (x.read ω)).length = x.read ω := by rw [List.length_take]; omega
  -- what is in the buffer after the read
  obtain ⟨D, L', part, rfl, hw, hpart, hrest⟩ := unlines_cut (fun l hl => (h.lines l hl).2)
    (show (x.mem.slice buf x.m ++ x.rest.take (x.read ω)) ++ x.rest.drop (x.read ω) = _ by
      rw [List.append_assoc, List.take_append_drop, h.input])
  have hlen : x.m + x.read ω = (unlines D).length + part.length := by
    have := congrArg List.length hw
    rwa [List.length_append, List.length_append, hm, htake] at this
  obtain ⟨hD, hshort⟩ := length_unlines D
  obtain ⟨mem, hmem⟩ : ∃ mem : Bytes, mem =
      update (x.mem.blit (buf + x.m) (x.rest.take (x.read ω))) (buf + (x.m + x.read ω)) 0 := ⟨_, rfl⟩
  have hkept {k : Nat} (hk : k < buf + x.m ∨ buf + 1024 ≤ k) : mem k = x.mem k := by
    rw [hmem, update_of_ne (by omega), Bytes.blit_of_not (by omega)]
  have hstr : mem.Str buf (unlines D ++ part) := by
    refine Bytes.str_iff.mpr ⟨?_, ?_, ?_⟩
    · intro hz
      refine zero_notMem_unlines h.lines ?_
      rw [unlines_append, ← hrest, ← List.append_assoc]
      exact List.mem_append_left _ hz
    · rw [← hw, List.length_append, hm, htake, ← Bytes.slice_append]
      congr 1
      · exact Bytes.slice_congr fun i hi => hkept (by omega)
      · have hb := Bytes.slice_blit x.mem (buf + x.m) (x.rest.take (x.read ω))
        rw [htake] at hb
        refine (Bytes.slice_congr fun i hi => ?_).trans hb
        rw [hmem, update_of_ne (by omega)]
    · rw [List.length_append, ← hlen, hmem, update_self]
  have hpat : mem.Str re p := h.pattern.congr fun k h1 h2 => hkept (by omega)
  have hlines : ∀ l ∈ D, LF ∉ l := fun l hl => (h.lines l (List.mem_append_left _ hl)).2
  obtain ⟨mem', hloop, hkept'⟩ := lines_taken hlines hpart x.out hpat hstr h.pos (by omega)
    (show _ < fuel by rw [List.length_append]; omega) (show _ < fuel by omega)
  have hpart' : mem'.slice (buf + (unlines D).length) part.length = part := by
    obtain ⟨-, hs, -⟩ := Bytes.str_iff.mp hstr.of_append
    exact (Bytes.slice_congr fun i hi => hkept' _ (by omega)).trans hs
  have hmoved : (mem'.blit buf part).slice buf part.length = part := Bytes.slice_blit _ _ _
  refine ⟨D, L', ⟨mem'.blit buf part, part.length, x.rest.drop (x.read ω), x.reads + 1, _⟩, rfl,
    fun l hl => ?_, ?_, ?_, rfl, ?_⟩
  · have := hshort l hl
    exact decide_eq_true (show l.length < 1024 - 1 by omega)
  · have hleft : x.m + x.read ω - (buf + (unlines D).length - buf) = part.length := by omega
    simp only [grepRound, if_neg h0, ← hmem, hloop, Option.bind_eq_bind, Option.bind_some,
      if_pos (show 0 < x.m + x.read ω by omega), hleft, hpart', Option.pure_def]
  · have hroom : part.length < 1024 := by omega
    refine ⟨hpat.congr fun k h1 h2 => ?_, h.apart, h.pos,
      fun l hl => h.lines l (List.mem_append_right _ hl), hroom, by rwa [hmoved], by rwa [hmoved]⟩
    exact (Bytes.blit_of_not (by omega)).trans (hkept' k (by omega))
  · show (x.rest.drop (x.read ω)).length < _
    rw [List.length_drop]
    omega

/-- **What `grep` writes**, whatever the chunks: the lines that match, up to the first that does not
fit into the buffer. -/
theorem Carried.loop_eq (hf : p.length + BUFSZ < fuel) : ∀ {n : Nat} {L : List (List UInt8)} {x : Pass},
    Carried p re buf L x → x.rest.length < n → loop (grepRound ω fuel re buf) n x =
      some (x.out ++ unlines ((L.takeWhile short).filter (hits p))) := by
  intro n
  induction n with
  | zero => intro L x _ hn; exact absurd hn (Nat.not_lt_zero _)
  | succ n ih =>
    intro L x h hn
    by_cases h0 : x.read ω = 0
    · simp [loop, grepRound, h0, h.stuck h0, unlines]
    · obtain ⟨D, L', x', rfl, hD, hround, hx', hout, hlt⟩ := h.round h0 hf
      simp only [loop, hround]
      rw [ih hx' (by omega), hout, List.takeWhile_append_of_pos hD, List.filter_append,
        unlines_append, List.append_assoc]

end

theorem grep_eq {re : Nat} {mem : Bytes} (ω : Nat → Nat) (hp : mem.Str re p) (hbuf : 0 < buf)
    (hapart : buf + BUFSZ ≤ re ∨ re + p.length < buf) (hls : ∀ l ∈ ls, 0 ∉ l ∧ LF ∉ l)
    (hf : p.length + BUFSZ + (unlines ls).length < fuel) : grep ω fuel mem re buf (unlines ls) =
      some (unlines ((ls.takeWhile short).filter (hits p))) := by
  have h : Carried p re buf ls ⟨mem, 0, unlines ls, 0, []⟩ :=
    ⟨hp, hapart, hbuf, hls, Nat.zero_lt_succ _, by simp [Bytes.slice], by simp [Bytes.slice]⟩
  exact h.loop_eq (by omega) (show (unlines ls).length < fuel by omega)

/-- **The lines that match are written exactly if none of them is lost** behind a line that does not
fit into the buffer. -/
theorem grep_writes_matching {p : List UInt8} {re buf fuel : Nat} {mem : Bytes}
    {ls : List (List UInt8)} (ω : Nat → Nat) (hp : mem.Str re p) (hbuf : 0 < buf)
    (hapart : buf + BUFSZ ≤ re ∨ re + p.length < buf) (hls : ∀ l ∈ ls, 0 ∉ l ∧ LF ∉ l)
    (hf : p.length + BUFSZ + (unlines ls).length < fuel) :
    grep ω fuel mem re buf (unlines ls) = some (unlines (ls.filter (hits p))) ↔
      ∀ l ∈ ls.dropWhile short, hits p l = false := by
  have hsplit : ls.filter (hits p) =
      (ls.takeWhile short).filter (hits p) ++ (ls.dropWhile short).filter (hits p) := by
    rw [← List.filter_append, List.takeWhile_append_dropWhile]
  have hnone : unlines ((ls.dropWhile short).filter (hits p)) = [] ↔
      ∀ l ∈ ls.dropWhile short, hits p l = false := by
    simp [unlines_eq_nil]
  rw [← hnone, hsplit, unlines_append, grep_eq ω hp hbuf hapart hls hf, Option.some.injEq]
  exact List.self_eq_append_right

def fourLines : List (List UInt8) := [[0x61, 0x61, 0x62], [0x63, 0x61], [0x62], List.replicate 1023 0x63]

/-- They come in chunks of three bytes, and neither the second nor the long one matches `^a*b`. -/
theorem grep_writes_matching_fourLines :
    grep (fun _ => 2) 4000 ((Bytes.fill 0).blit 1025 [CARET, 0x61, STAR, 0x62]) 1025 1 (unlines fourLines) =
      some (unlines [[0x61, 0x61, 0x62], [0x62]]) := by
  have hp : ((Bytes.fill 0).blit 1025 [CARET, 0x61, STAR, 0x62]).Str 1025 [CARET, 0x61, STAR, 0x62] :=
    ⟨rfl, by decide, rfl, by decide, rfl, by decide, rfl, by decide, rfl⟩
  have hhits : fourLines.filter (hits [CARET, 0x61, STAR, 0x62]) =
      [[0x61, 0x61, 0x62], [0x62]] := by decide +kernel
  rw [← hhits]
  exact (grep_writes_matching _ hp (by decide) (by decide) (by decide +kernel) (by decide +kernel)).2
    (by decide +kernel)

theorem hits_nil (l : List UInt8) : hits [] l = true := by
  simp [hits, match_, loop, tryRound, matchhere, Bytes.blit, Bytes.fill, show (0 : UInt8) ≠ CARET by decide]

/-- A line of 1023 bytes is lost. -/
theorem grep_loses_line : hits [] (List.replicate 1023 0x61) = true ∧
    ∀ ω, grep ω 4000 (Bytes.fill 0) 1025 1 (unlines [List.replicate 1023 0x61]) = some [] := by
  refine ⟨hits_nil _, fun ω => ?_⟩
  have hp : (Bytes.fill 0).Str 1025 [] := rfl
  have hls : ∀ l ∈ [List.replicate 1023 0x61], 0 ∉ l ∧ LF ∉ l := by
    simp [-List.reduceReplicate, show LF ≠ 0x61 by decide]
  have hf : ([] : List UInt8).length + BUFSZ + (unlines [List.replicate 1023 0x61]).length < 4000 := by
    simp [unlines, BUFSZ, -List.reduceReplicate]
  rw [grep_eq ω hp (by decide) (by decide) hls hf]
  simp [short, unlines, -List.reduceReplicate]

end ZeptOS.Grep
