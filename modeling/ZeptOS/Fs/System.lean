import Mathlib.Algebra.BigOperators.Fin
import Mathlib.Algebra.Order.BigOperators.Group.Finset
import ZeptOS.Fs.Exits

/-!
# Books that balance

What all processes own and what the file slots own is what the tables count: `Inv`. An operation
that the rules allow keeps it (`Inv.step`), and so it holds in every state of every interleaving.
-/

namespace ZeptOS.Fs

open Lib Lib.Code Function Multiset

variable {G : Proc → Ledger} {p q : Proc} {r : Token} {b : Nat} {s s' : State}
  {T give take : Multiset Token} {ip : Slot} {x : File}

/-! ## The invariant -/

def total (G : Proc → Ledger) (r : Token) : Nat := ∑ p, (G p).1.count r

def slots (s : State) (r : Token) : Nat := ∑ f, (s.file f).owns.count r

def holds (l : Option Proc) (p : Proc) : Nat := if l = some p then 1 else 0

def opened (x : Pipe) (w : Bool) : Nat := if x.isOpen w then 1 else 0

structure Books (s : State) (G : Proc → Ledger) : Prop where
  iref : ∀ ip, (s.ident ip).ref = total G (.iref ip) + slots s (.iref ip)
  fref : ∀ f, (s.file f).ref = total G (.fref f)
  pend : ∀ pi w, opened (s.pipe pi) w =
    total G (.pend pi w) + slots s (.pend pi w)
  tx : ∀ p, s.begun p = (G p).1.count .tx
  lock : ∀ p ip, holds (s.lock ip) p = (G p).1.count (.lock ip)
  buf : ∀ p b, holds (s.buf b) p = (G p).1.count (.buf b)

structure Blanks (s : State) (G : Proc → Ledger) : Prop where
  zero : ∀ f, (s.file f).ref = 0 → (s.file f).type = .none
  once : ∀ p f, (G p).1.count (.blank f) ≤ (G p).1.count (.fref f)
  blank : ∀ p f, .blank f ∈ (G p).1 → (s.file f).ref = 1 ∧ (s.file f).type = .none

structure Procs (s : State) (G : Proc → Ledger) : Prop where
  pstate : ∀ p, (G p).2.pstate = s.pstate p
  ofile : ∀ p, (G p).2.ofile = s.ofile p
  cwd : ∀ p, (G p).2.cwd = s.cwd p
  kid : ∀ p k, (G p).2.kid = some k →
    s.pstate k.np = .used ∧ s.ofile k.np = k.ofile ∧ s.cwd k.np = k.cwd
  kids : ∀ p q k l, (G p).2.kid = some k → (G q).2.kid = some l → k.np = l.np → p = q
  unused : ∀ p, s.pstate p = .unused → Vacant (G p).1 (G p).2
  used : ∀ p, s.pstate p = .used → (G p).1 = 0 ∧ (G p).2.kid = none
  parent : ∀ p, s.pstate p = .used → ∃ q k, (G q).2.kid = some k ∧ k.np = p

structure Inv (s : State) (G : Proc → Ledger) : Prop where
  books : Books s G
  blanks : Blanks s G
  procs : Procs s G
  /-- a page is freed once, when both ends are closed -/
  pages : ∀ pi, (s.pipe pi).kallocs =
    (s.pipe pi).kfrees + if (s.pipe pi).readopen ∨ (s.pipe pi).writeopen then 1 else 0
  ends : ∀ f, (s.file f).OneEnd

/-! ## Moving tokens -/

section Moves

variable {e : Private}

theorem total_update (G : Proc → Ledger) (p : Proc) (g : Ledger) (r : Token) :
    total (update G p g) r + (G p).1.count r = total G r + g.1.count r := by
  unfold total
  rw [← Finset.sum_erase_add _ _ (Finset.mem_univ p),
    ← Finset.sum_erase_add _ (fun q => (G q).1.count r) (Finset.mem_univ p),
    update_self]
  have hrest : ∑ q ∈ Finset.univ.erase p, (update G p g q).1.count r =
      ∑ q ∈ Finset.univ.erase p, (G q).1.count r :=
    Finset.sum_congr rfl fun q hq => by rw [update_of_ne (Finset.ne_of_mem_erase hq)]
  omega

theorem total_moves (give : Multiset Token) (hT : (G p).1 = take + T) (e : Private) (r : Token) :
    total (update G p (give + T, e)) r + take.count r = total G r + give.count r := by
  have h := total_update G p (give + T, e) r
  simp only [hT, count_add] at h
  omega

theorem count_moves (give : Multiset Token) (hT : (G p).1 = take + T) (e : Private) (r : Token) (q : Proc) :
    (update G p (give + T, e) q).1.count r + (if q = p then take.count r else 0) =
      (G q).1.count r + if q = p then give.count r else 0 := by
  by_cases h : q = p
  · subst h
    simp only [update_self, hT, count_add, if_true]
    omega
  · simp [h]

/-- **The books after a move**: what the tables count has to change as the tokens do. -/
theorem Books.moves (h : Books s G) (hT : (G p).1 = take + T) (e : Private)
    (iref : ∀ ip, (s'.ident ip).ref + take.count (.iref ip) + slots s (.iref ip) =
      (s.ident ip).ref + give.count (.iref ip) + slots s' (.iref ip))
    (fref : ∀ f, (s'.file f).ref + take.count (.fref f) = (s.file f).ref + give.count (.fref f))
    (pend : ∀ pi w, opened (s'.pipe pi) w + take.count (.pend pi w) +
      slots s (.pend pi w) = opened (s.pipe pi) w + give.count (.pend pi w) + slots s' (.pend pi w))
    (tx : ∀ q, s'.begun q + (if q = p then take.count .tx else 0) =
      s.begun q + if q = p then give.count .tx else 0)
    (lock : ∀ q ip, holds (s'.lock ip) q + (if q = p then take.count (.lock ip) else 0) =
      holds (s.lock ip) q + if q = p then give.count (.lock ip) else 0)
    (buf : ∀ q b, holds (s'.buf b) q + (if q = p then take.count (.buf b) else 0) =
      holds (s.buf b) q + if q = p then give.count (.buf b) else 0) :
    Books s' (update G p (give + T, e)) where
  iref ip := by
    have ht := total_moves give hT e (.iref ip)
    have hb := h.iref ip
    have hm := iref ip
    omega
  fref f := by
    have ht := total_moves give hT e (.fref f)
    have hb := h.fref f
    have hm := fref f
    omega
  pend pi w := by
    have ht := total_moves give hT e (.pend pi w)
    have hb := h.pend pi w
    have hm := pend pi w
    omega
  tx q := by
    have hc := count_moves give hT e .tx q
    have hb := h.tx q
    have hm := tx q
    omega
  lock q ip := by
    have hc := count_moves give hT e (.lock ip) q
    have hb := h.lock q ip
    have hm := lock q ip
    omega
  buf q b := by
    have hc := count_moves give hT e (.buf b) q
    have hb := h.buf q b
    have hm := buf q b
    omega

theorem Blanks.moves (h : Blanks s G) (hT : (G p).1 = take + T) (e : Private)
    (hfile : ∀ f, (s'.file f).ref = (s.file f).ref ∧ (s'.file f).type = (s.file f).type)
    (hblank : ∀ f, take.count (.blank f) = give.count (.blank f))
    (hfref : ∀ f, take.count (.fref f) = give.count (.fref f)) :
    Blanks s' (update G p (give + T, e)) where
  zero f hf := by
    rw [(hfile f).2]
    exact h.zero f ((hfile f).1 ▸ hf)
  once q f := by
    have hb := count_moves give hT e (.blank f) q
    have hr := count_moves give hT e (.fref f) q
    rw [hblank f] at hb
    rw [hfref f] at hr
    have ho := h.once q f
    omega
  blank q f hf := by
    have hb := count_moves give hT e (.blank f) q
    rw [hblank f] at hb
    have hpos := count_pos.mpr hf
    rw [(hfile f).1, (hfile f).2]
    exact h.blank q f (count_pos.mp (by omega))

def Ledger.Off (g : Ledger) : Prop := g.2.pstate = .unused ∨ g.2.pstate = .used

theorem snd_update (G : Proc → Ledger) (p : Proc) (X : Multiset Token) (q : Proc) :
    (update G p (X, (G p).2) q).2 = (G q).2 := by
  by_cases hq : q = p
  · subst hq
    rw [update_self]
  · rw [update_of_ne hq]

theorem Procs.moves (h : Procs s G) (hoff : ¬(G p).Off) (hp : s'.pstate = s.pstate)
    (ho : s'.ofile = s.ofile) (hc : s'.cwd = s.cwd) (X : Multiset Token) :
    Procs s' (update G p (X, (G p).2)) where
  pstate q := by rw [snd_update, hp, h.pstate]
  ofile q := by rw [snd_update, ho, h.ofile]
  cwd q := by rw [snd_update, hc, h.cwd]
  kid q k hk := by
    rw [snd_update] at hk
    rw [hp, ho, hc]
    exact h.kid q k hk
  kids q q' k l hk hl := by
    rw [snd_update] at hk hl
    exact h.kids q q' k l hk hl
  unused q hq := by
    rw [hp] at hq
    have hne : q ≠ p := by
      rintro rfl
      exact hoff (.inl ((h.pstate q).trans hq))
    rw [update_of_ne hne]
    exact h.unused q hq
  used q hq := by
    rw [hp] at hq
    have hne : q ≠ p := by
      rintro rfl
      exact hoff (.inr ((h.pstate q).trans hq))
    rw [update_of_ne hne]
    exact h.used q hq
  parent q hq := by
    rw [hp] at hq
    obtain ⟨q', k, hk, hnp⟩ := h.parent q hq
    exact ⟨q', k, by rw [snd_update, hk], hnp⟩

/-- The books can be kept after an operation of `p` that leaves `R` of what it owns. -/
def Next (s' : State) (G : Proc → Ledger) (p : Proc) (R : Ledger → Prop) : Prop :=
  ∃ G' : Proc → Ledger, Inv s' G' ∧ R (G' p) ∧ ¬(G' p).Off ∧
    ∀ u, u ≠ p → G' u = G u ∨ (G u).Off ∧ (G' u).Rest

theorem Next.of_moves (hoff : ¬(G p).Off) (hT : (G p).1 = take + T)
    (h : Inv s' (update G p (give + T, (G p).2))) : Next s' G p (Moves take give (G p)) := by
  refine ⟨_, h, ⟨T, hT, ?_, ?_⟩, ?_, fun u hu => .inl (update_of_ne hu _ _)⟩
  · rw [update_self]
  · rw [update_self]
  · rw [update_self]
    exact hoff

theorem Next.mono {R R' : Ledger → Prop} (h : Next s' G p R) (hR : ∀ g, R g → R' g) :
    Next s' G p R' := by
  obtain ⟨G', hi, hr, hoff, hu⟩ := h
  exact ⟨G', hi, hR _ hr, hoff, hu⟩

theorem Next.of_same (hoff : ¬(G p).Off) (h : Inv s' G) : Next s' G p (· = G p) :=
  ⟨G, h, rfl, hoff, fun _ _ => .inl rfl⟩

/-- What operations outside files, pipes and processes leave alone. -/
structure Same (s s' : State) : Prop where
  file : s'.file = s.file
  pipe : s'.pipe = s.pipe
  pstate : s'.pstate = s.pstate
  ofile : s'.ofile = s.ofile
  cwd : s'.cwd = s.cwd

theorem Same.refl (s : State) : Same s s := ⟨rfl, rfl, rfl, rfl, rfl⟩

theorem Same.trans {s'' : State} (h : Same s s') (h' : Same s' s'') : Same s s'' :=
  ⟨h'.file.trans h.file, h'.pipe.trans h.pipe, h'.pstate.trans h.pstate, h'.ofile.trans h.ofile,
    h'.cwd.trans h.cwd⟩

theorem Same.slots (h : Same s s') (r : Token) : slots s' r = slots s r := by
  unfold Fs.slots
  rw [h.file]

def Token.Plain : Token → Prop
  | .tx | .lock _ | .buf _ | .iref _ => True
  | .fref _ | .blank _ | .pend _ _ => False

theorem count_of_plain {P : Multiset Token} (h : ∀ r ∈ P, r.Plain) (hr : ¬r.Plain) : P.count r = 0 :=
  count_eq_zero.mpr fun hm => hr (h r hm)

theorem Inv.plain (h : Inv s G) (hoff : ¬(G p).Off) (hT : (G p).1 = take + T) (hS : Same s s')
    (ht : ∀ r ∈ take, r.Plain) (hg : ∀ r ∈ give, r.Plain)
    (iref : ∀ ip, (s'.ident ip).ref + take.count (.iref ip) =
      (s.ident ip).ref + give.count (.iref ip))
    (tx : ∀ q, s'.begun q + (if q = p then take.count .tx else 0) =
      s.begun q + if q = p then give.count .tx else 0)
    (lock : ∀ q ip, holds (s'.lock ip) q + (if q = p then take.count (.lock ip) else 0) =
      holds (s.lock ip) q + if q = p then give.count (.lock ip) else 0)
    (buf : ∀ q b, holds (s'.buf b) q + (if q = p then take.count (.buf b) else 0) =
      holds (s.buf b) q + if q = p then give.count (.buf b) else 0) :
    Next s' G p (Moves take give (G p)) := by
  have hzero {r : Token} (hr : ¬r.Plain) : take.count r = give.count r := by
    rw [count_of_plain ht hr, count_of_plain hg hr]
  refine .of_moves hoff hT ⟨?_, ?_, ?_, ?_, ?_⟩
  · refine h.books.moves hT _ (fun ip => ?_) (fun f => ?_) (fun pi w => ?_) tx lock buf
    · rw [hS.slots, iref]
    · rw [hS.file, hzero (by exact id)]
    · rw [hS.slots, hS.pipe, hzero (by exact id)]
  · exact h.blanks.moves hT _ (fun f => by rw [hS.file]; exact ⟨rfl, rfl⟩)
      (fun f => hzero (by exact id)) fun f => hzero (by exact id)
  · exact h.procs.moves hoff hS.pstate hS.ofile hS.cwd _
  · rw [hS.pipe]
    exact h.pages
  · rw [hS.file]
    exact h.ends

end Moves

/-! ## Locks -/

section Locks

variable {κ : Type} [DecidableEq κ] {l : κ → Option Proc} {k : κ}

theorem taken (h : l k = none) (p q : Proc) (k' : κ) : holds (update l k (some p) k') q =
      holds (l k') q + if q = p then (if k' = k then 1 else 0) else 0 := by
  unfold holds
  by_cases hk : k' = k
  · subst hk
    by_cases hq : q = p
    · simp [hq, h]
    · simp [hq, h, Ne.symm hq]
  · simp [hk]

theorem released (h : l k = some p) (q : Proc) (k' : κ) :
    holds (update l k none k') q + (if q = p then (if k' = k then 1 else 0) else 0) =
      holds (l k') q := by
  unfold holds
  by_cases hk : k' = k
  · subst hk
    by_cases hq : q = p
    · simp [hq, h]
    · simp [hq, h, Ne.symm hq]
  · simp [hk]

end Locks

/-! ## The operations -/

section Ops

variable (h : Inv s G) (hoff : ¬(G p).Off)
include h hoff

theorem Inv.bread (hb : s.buf b = none) :
    Next (s.setBuf b (some p)) G p (Moves 0 {.buf b} (G p)) := by
  refine h.plain hoff (zero_add _).symm ⟨rfl, rfl, rfl, rfl, rfl⟩ (by simp) (by simp [Token.Plain])
    (fun ip => by simp [State.setBuf]) (fun q => by simp [State.setBuf])
    (fun q ip => by simp [State.setBuf]) fun q b' => ?_
  simp only [State.setBuf, count_zero, ite_self, add_zero, taken hb,
    count_singleton, Token.buf.injEq]

theorem Inv.brelse (hT : (G p).1 = {.buf b} + T) (hb : s.buf b = some p) :
    Next (s.setBuf b none) G p (Moves {.buf b} 0 (G p)) := by
  refine h.plain hoff hT ⟨rfl, rfl, rfl, rfl, rfl⟩ (by simp [Token.Plain]) (by simp)
    (fun ip => by simp [State.setBuf]) (fun q => by simp [State.setBuf])
    (fun q ip => by simp [State.setBuf]) fun q b' => ?_
  simp only [State.setBuf, count_zero, ite_self, add_zero, count_singleton,
    Token.buf.injEq, released hb]

theorem Inv.acquire (hl : s.lock ip = none) :
    Next (s.setLock ip (some p)) G p (Moves 0 {.lock ip} (G p)) := by
  refine h.plain hoff (zero_add _).symm ⟨rfl, rfl, rfl, rfl, rfl⟩ (by simp) (by simp [Token.Plain])
    (fun ip => by simp [State.setLock]) (fun q => by simp [State.setLock]) (fun q ip' => ?_)
    fun q b => by simp [State.setLock]
  simp only [State.setLock, count_zero, ite_self, add_zero, taken hl,
    count_singleton, Token.lock.injEq]

theorem Inv.releasesleep (hT : (G p).1 = {.lock ip} + T) :
    Next (s.setLock ip none) G p (Moves {.lock ip} 0 (G p)) := by
  -- who has the token has the lock
  have hl : s.lock ip = some p := by
    have hc := h.books.lock p ip
    rw [hT, count_add, count_singleton_self] at hc
    unfold holds at hc
    split at hc
    · assumption
    · omega
  refine h.plain hoff hT ⟨rfl, rfl, rfl, rfl, rfl⟩ (by simp [Token.Plain]) (by simp)
    (fun ip => by simp [State.setLock]) (fun q => by simp [State.setLock]) (fun q ip' => ?_)
    fun q b => by simp [State.setLock]
  simp only [State.setLock, count_zero, ite_self, add_zero, count_singleton,
    Token.lock.injEq, released hl]

theorem Inv.beginOp : Next (s.setBegun p (s.begun p + 1)) G p (Moves 0 {.tx} (G p)) := by
  refine h.plain hoff (zero_add _).symm ⟨rfl, rfl, rfl, rfl, rfl⟩ (by simp) (by simp [Token.Plain])
    (fun ip => by simp [State.setBegun]) (fun q => ?_) (fun q ip => by simp [State.setBegun])
    fun q b => by simp [State.setBegun]
  by_cases hq : q = p
  · subst hq
    simp [State.setBegun]
  · simp [State.setBegun, hq]

theorem Inv.endOp (hT : (G p).1 = {.tx} + T) :
    Next (s.setBegun p (s.begun p - 1)) G p (Moves {.tx} 0 (G p)) := by
  have hpos : 1 ≤ s.begun p := by
    rw [h.books.tx p, hT, count_add, count_singleton_self]
    omega
  refine h.plain hoff hT ⟨rfl, rfl, rfl, rfl, rfl⟩ (by simp [Token.Plain]) (by simp)
    (fun ip => by simp [State.setBegun]) (fun q => ?_) (fun q ip => by simp [State.setBegun])
    fun q b => by simp [State.setBegun]
  by_cases hq : q = p
  · subst hq
    simp [State.setBegun]
    omega
  · simp [State.setBegun, hq]

theorem Inv.getRef (hr : (s'.ident ip).ref = (s.ident ip).ref + 1)
    (hne : ∀ i, i ≠ ip → s'.ident i = s.ident i) (hS : Same s s') (hb : s'.begun = s.begun)
    (hl : s'.lock = s.lock) (hu : s'.buf = s.buf) : Next s' G p (Moves 0 {.iref ip} (G p)) := by
  refine h.plain hoff (zero_add _).symm hS (by simp) (by simp [Token.Plain]) (fun i => ?_)
    (fun q => by simp [hb]) (fun q i => by simp [hl]) fun q b => by simp [hu]
  by_cases hi : i = ip
  · subst hi
    simp [hr]
  · simp [hne i hi, hi]

theorem Inv.putRef (hT : (G p).1 = {.iref ip} + T) :
    Next (s.addRef ip (-1)) G p (Moves {.iref ip} 0 (G p)) := by
  refine h.plain hoff hT ⟨rfl, rfl, rfl, rfl, rfl⟩ (by simp [Token.Plain]) (by simp) (fun i => ?_)
    (fun q => by simp [State.addRef, State.setIdent])
    (fun q i => by simp [State.addRef, State.setIdent])
    fun q b => by simp [State.addRef, State.setIdent]
  by_cases hi : i = ip
  · subst hi
    simp [State.addRef, State.setIdent]
  · simp [State.addRef, State.setIdent, hi]

theorem Inv.untouched (hS : Same s s') (hi : s'.ident = s.ident) (hb : s'.begun = s.begun)
    (hl : s'.lock = s.lock) (hu : s'.buf = s.buf) : Next s' G p (· = G p) := by
  refine .of_same hoff ⟨⟨?_, ?_, ?_, ?_, ?_, ?_⟩, ⟨?_, ?_, ?_⟩, ⟨?_, ?_, ?_, ?_, ?_, ?_, ?_, ?_⟩,
    ?_, ?_⟩
  · simpa only [hi, hS.slots] using h.books.iref
  · simpa only [hS.file] using h.books.fref
  · simpa only [hS.pipe, hS.slots] using h.books.pend
  · simpa only [hb] using h.books.tx
  · simpa only [hl] using h.books.lock
  · simpa only [hu] using h.books.buf
  · simpa only [hS.file] using h.blanks.zero
  · exact h.blanks.once
  · simpa only [hS.file] using h.blanks.blank
  · simpa only [hS.pstate] using h.procs.pstate
  · simpa only [hS.ofile] using h.procs.ofile
  · simpa only [hS.cwd] using h.procs.cwd
  · simpa only [hS.pstate, hS.ofile, hS.cwd] using h.procs.kid
  · exact h.procs.kids
  · simpa only [hS.pstate] using h.procs.unused
  · simpa only [hS.pstate] using h.procs.used
  · simpa only [hS.pstate] using h.procs.parent
  · simpa only [hS.pipe] using h.pages
  · simpa only [hS.file] using h.ends

end Ops

/-! ## Files -/

theorem slots_setFile (s : State) (f : FileNo) (x : File) (r : Token) :
    slots (s.setFile f x) r + (s.file f).owns.count r = slots s r + x.owns.count r := by
  unfold slots
  rw [← Finset.sum_erase_add _ _ (Finset.mem_univ f),
    ← Finset.sum_erase_add _ (fun g => (s.file g).owns.count r) (Finset.mem_univ f)]
  have hrest : ∑ g ∈ Finset.univ.erase f, ((s.setFile f x).file g).owns.count r =
      ∑ g ∈ Finset.univ.erase f, (s.file g).owns.count r :=
    Finset.sum_congr rfl fun g hg => by
      simp only [State.setFile, update_of_ne (Finset.ne_of_mem_erase hg)]
  simp only [State.setFile, update_self] at hrest ⊢
  omega

theorem owns_of_none (h : x.type = .none) : x.owns = 0 := by
  simp [File.owns, h]

theorem count_owns (x : File) (hr : ∀ ip, r ≠ .iref ip) (hp : ∀ pi w, r ≠ .pend pi w) :
    x.owns.count r = 0 := by
  unfold File.owns
  split
  · exact count_zero r
  · exact count_eq_zero.mpr fun h => hp _ _ (mem_singleton.mp h)
  · exact count_eq_zero.mpr fun h => hr _ (mem_singleton.mp h)
  · exact count_eq_zero.mpr fun h => hr _ (mem_singleton.mp h)

@[simp] theorem count_owns_fref (x : File) (g : FileNo) : x.owns.count (.fref g) = 0 :=
  count_owns x (by simp) (by simp)

@[simp] theorem count_owns_blank (x : File) (g : FileNo) : x.owns.count (.blank g) = 0 :=
  count_owns x (by simp) (by simp)

@[simp] theorem count_owns_tx (x : File) : x.owns.count .tx = 0 :=
  count_owns x (by simp) (by simp)

@[simp] theorem count_owns_lock (x : File) (ip : Slot) : x.owns.count (.lock ip) = 0 :=
  count_owns x (by simp) (by simp)

@[simp] theorem count_owns_buf (x : File) (b : Nat) : x.owns.count (.buf b) = 0 :=
  count_owns x (by simp) (by simp)

section Files

variable {f : FileNo} (h : Inv s G)
include h

theorem Inv.count_le (p : Proc) (f : FileNo) : ((G p).1.count (.fref f) : ℤ) ≤ (s.file f).ref := by
  rw [h.books.fref f]
  exact_mod_cast Finset.single_le_sum (f := fun q => (G q).1.count (.fref f))
    (fun _ _ => Nat.zero_le _) (Finset.mem_univ p)

theorem Inv.count_add_le (hq : q ≠ p) (f : FileNo) :
    ((G p).1.count (.fref f) + (G q).1.count (.fref f) : ℤ) ≤ (s.file f).ref := by
  rw [h.books.fref f]
  have hsub : ∑ i ∈ {p, q}, (G i).1.count (.fref f) ≤ total G (.fref f) :=
    Finset.sum_le_sum_of_subset (Finset.subset_univ _)
  rw [Finset.sum_pair hq.symm] at hsub
  exact_mod_cast hsub

theorem Inv.fref_of_blank (hb : .blank f ∈ (G q).1) : .fref f ∈ (G q).1 := by
  have h1 := count_pos.mpr hb
  exact count_pos.mp (h1.trans_le (h.blanks.once q f))

theorem Inv.not_blank (hq : q ≠ p) (hp : .fref f ∈ (G p).1) : .blank f ∉ (G q).1 := by
  intro hb
  have h1 := (h.blanks.blank q f hb).1
  have h2 := h.count_add_le hq f
  have h3 := count_pos.mpr hp
  have h4 := count_pos.mpr (h.fref_of_blank hb)
  omega

variable (hoff : ¬(G p).Off)
include hoff

theorem Inv.setFile (hT : (G p).1 = take + T)
    (hiref : ∀ ip, take.count (.iref ip) + (s.file f).owns.count (.iref ip) =
      give.count (.iref ip) + x.owns.count (.iref ip))
    (hpend : ∀ pi w, take.count (.pend pi w) + (s.file f).owns.count (.pend pi w) =
      give.count (.pend pi w) + x.owns.count (.pend pi w))
    (hfref : x.ref + take.count (.fref f) = (s.file f).ref + give.count (.fref f))
    (hother : ∀ g, g ≠ f → take.count (.fref g) = give.count (.fref g))
    (hheld : ∀ r, (r = .tx ∨ (∃ ip, r = .lock ip) ∨ ∃ b, r = .buf b) → take.count r = give.count r)
    (hend : x.OneEnd) (hB : Blanks (s.setFile f x) (update G p (give + T, (G p).2))) :
    Next (s.setFile f x) G p (Moves take give (G p)) := by
  refine .of_moves hoff hT ⟨?_, hB, h.procs.moves hoff (by rfl) (by rfl) (by rfl) _, h.pages,
    fun g => ?_⟩
  rotate_left
  · by_cases hg : g = f
    · subst hg
      simpa [State.setFile] using hend
    · simpa [State.setFile, hg] using h.ends g
  refine h.books.moves hT _ (fun ip => ?_) (fun g => ?_) (fun pi w => ?_) (fun q => ?_)
    (fun q ip => ?_) fun q b => ?_
  · have hs := slots_setFile s f x (.iref ip)
    have hi := hiref ip
    show (s.ident ip).ref + _ + _ = _
    omega
  · by_cases hg : g = f
    · subst hg
      simpa [State.setFile] using hfref
    · simp [State.setFile, hg, hother g hg]
  · have hs := slots_setFile s f x (.pend pi w)
    have hi := hpend pi w
    show opened (s.pipe pi) w + _ + _ = _
    omega
  · show s.begun q + _ = _
    rw [hheld _ (.inl rfl)]
  · show holds (s.lock ip) q + _ = _
    rw [hheld _ (.inr (.inl ⟨ip, rfl⟩))]
  · show holds (s.buf b) q + _ = _
    rw [hheld _ (.inr (.inr ⟨b, rfl⟩))]

theorem Inv.filealloc (hf : (s.file f).ref = 0) :
    Next (s.setFile f { s.file f with ref := 1 }) G p (Moves 0 ({.fref f} + {.blank f}) (G p)) := by
  have htype := h.blanks.zero f hf
  have hown : (s.file f).owns = 0 := owns_of_none htype
  have hown' : File.owns { s.file f with ref := 1 } = 0 := owns_of_none htype
  refine h.setFile hoff (zero_add _).symm (fun ip => by simp [hown, hown'])
    (fun pi w => by simp [hown, hown']) (by simp [hf]) (fun g hg => by simp [hg])
    ?_ (h.ends f) ⟨fun g hg => ?_, fun q g => ?_, fun q g hb => ?_⟩
  · rintro r (rfl | ⟨ip, rfl⟩ | ⟨b, rfl⟩) <;> simp
  · by_cases hgf : g = f
    · subst hgf
      simp [State.setFile] at hg
    · simp only [State.setFile, update_of_ne hgf] at hg ⊢
      exact h.blanks.zero g hg
  · have hb := count_moves ({.fref f} + {.blank f}) (zero_add (G p).1).symm
      (G p).2 (.blank g) q
    have hr := count_moves ({.fref f} + {.blank f}) (zero_add (G p).1).symm
      (G p).2 (.fref g) q
    have ho := h.blanks.once q g
    simp only [count_zero, ite_self, add_zero, count_add, count_singleton,
      Token.blank.injEq, Token.fref.injEq, reduceCtorEq, if_false, zero_add] at hb hr
    omega
  · by_cases hgf : g = f
    · subst hgf
      simp [State.setFile, htype]
    · simp only [State.setFile, update_of_ne hgf]
      refine h.blanks.blank q g ?_
      by_cases hq : q = p
      · subst hq
        simpa [hgf] using hb
      · simpa [hq] using hb

theorem Blanks.setFile (hT : (G p).1 = take + T) (hzero : x.ref = 0 → x.type = .none)
    (hgive : ∀ g, give.count (.blank g) = 0)
    (hfref : ∀ g, g ≠ f → take.count (.fref g) ≤ give.count (.fref g)) (hnone : .blank f ∉ T)
    (hothers : ∀ q, q ≠ p → .blank f ∉ (G q).1) :
    Blanks (s.setFile f x) (update G p (give + T, (G p).2)) := by
  -- a blank that is left was there before
  have hleft {q : Proc} {g : FileNo}
      (hb : .blank g ∈ (update G p (give + T, (G p).2) q).1) :
      g ≠ f ∧ .blank g ∈ (G q).1 := by
    by_cases hq : q = p
    · subst hq
      rw [update_self, mem_add] at hb
      rcases hb with hb | hb
      · exact absurd hb (count_eq_zero.mp (hgive g))
      · refine ⟨fun hg => hnone (hg ▸ hb), ?_⟩
        rw [hT]
        exact subset_add_right hb
    · rw [update_of_ne hq] at hb
      exact ⟨fun hg => hothers q hq (hg ▸ hb), hb⟩
  refine ⟨fun g hg => ?_, fun q g => ?_, fun q g hb => ?_⟩
  · by_cases hgf : g = f
    · subst hgf
      simp only [State.setFile, update_self] at hg ⊢
      exact hzero hg
    · simp only [State.setFile, update_of_ne hgf] at hg ⊢
      exact h.blanks.zero g hg
  · by_cases hm : .blank g ∈ (update G p (give + T, (G p).2) q).1
    · have hgf := (hleft hm).1
      have hb := count_moves give hT (G p).2 (.blank g) q
      have hr := count_moves give hT (G p).2 (.fref g) q
      have ho := h.blanks.once q g
      have hf := hfref g hgf
      have hg := hgive g
      by_cases hq : q = p
      · simp only [hq, if_true] at hb hr ho ⊢
        omega
      · simp only [hq, if_false] at hb hr ho ⊢
        omega
    · rw [count_eq_zero.mpr hm]
      exact Nat.zero_le _
  · obtain ⟨hgf, hb⟩ := hleft hb
    simp only [State.setFile, update_of_ne hgf]
    exact h.blanks.blank q g hb

theorem Inv.filedup (hfref : .fref f ∈ (G p).1) (hb : .blank f ∉ (G p).1) :
    Next (s.setFile f { s.file f with ref := (s.file f).ref + 1 }) G p (Moves 0 {.fref f} (G p)) := by
  have hown : File.owns { s.file f with ref := (s.file f).ref + 1 } = (s.file f).owns := rfl
  have hpos := count_pos.mpr hfref
  have hle := h.count_le p f
  refine h.setFile hoff (zero_add _).symm (fun ip => by simp [hown]) (fun pi w => by simp [hown])
    (by simp) (fun g hg => by simp [hg]) ?_ (h.ends f) ?_
  · rintro r (rfl | ⟨ip, rfl⟩ | ⟨b, rfl⟩) <;> simp
  · refine Blanks.setFile h hoff (zero_add _).symm ?_ (fun g => by simp) (fun g _ => by simp) hb
      fun q hq => h.not_blank hq hfref
    intro h0
    simp only at h0
    omega

theorem Inv.fileput (hT : (G p).1 = {.fref f} + T) (hb : .blank f ∉ (G p).1)
    (hr : 1 < (s.file f).ref) : Next (s.setFile f { s.file f with ref := (s.file f).ref - 1 }) G p
      (Moves {.fref f} 0 (G p)) := by
  have hown : File.owns { s.file f with ref := (s.file f).ref - 1 } = (s.file f).owns := rfl
  have hfref : .fref f ∈ (G p).1 := by simp [hT]
  refine h.setFile hoff hT (fun ip => by simp [hown]) (fun pi w => by simp [hown])
    (by simp) (fun g hg => by simp [hg]) ?_ (h.ends f) ?_
  · rintro r (rfl | ⟨ip, rfl⟩ | ⟨b, rfl⟩) <;> simp
  · refine Blanks.setFile h hoff hT ?_ (fun g => by simp) (fun g hg => by simp [hg]) ?_
      fun q hq => h.not_blank hq hfref
    · intro h0
      simp only at h0
      omega
    · intro hm
      exact hb (by simp [hT, hm])

theorem Inv.filelast (hT : (G p).1 = {.fref f} + T) (hb : .blank f ∉ (G p).1)
    (hr : (s.file f).ref = 1) : Next (s.setFile f { s.file f with ref := 0, type := .none }) G p
      (Moves {.fref f} (s.file f).owns (G p)) := by
  have hown : File.owns { s.file f with ref := 0, type := .none } = 0 := rfl
  have hfref : .fref f ∈ (G p).1 := by simp [hT]
  refine h.setFile hoff hT (fun ip => by simp [hown]) (fun pi w => by simp [hown]) (by simp [hr])
    (fun g hg => by simp [hg]) ?_ nofun ?_
  · rintro r (rfl | ⟨ip, rfl⟩ | ⟨b, rfl⟩) <;> simp
  · refine Blanks.setFile h hoff hT (fun _ => rfl) (fun g => count_owns_blank _ g)
      (fun g hg => by simp [hg]) ?_ fun q hq => h.not_blank hq hfref
    intro hm
    exact hb (by simp [hT, hm])

omit hoff in
theorem Inv.blank_split (hb : .blank f ∈ (G p).1) :
    ∃ T, (G p).1 = {.fref f} + {.blank f} + T ∧ .blank f ∉ T := by
  obtain ⟨T₁, h₁⟩ := exists_cons_of_mem hb
  have hf := h.fref_of_blank hb
  rw [h₁, mem_cons] at hf
  obtain ⟨T, rfl⟩ := exists_cons_of_mem (hf.resolve_left nofun)
  refine ⟨T, by rw [h₁, cons_swap, add_assoc, singleton_add,
    singleton_add], fun hm => ?_⟩
  -- there is one reference, so there is one blank
  have h2 := h.blanks.once p f
  have h3 := h.count_le p f
  rw [(h.blanks.blank p f hb).1] at h3
  have h4 := count_pos.mpr hm
  rw [h₁] at h2
  simp only [count_cons, reduceCtorEq, if_false, if_true] at h2
  rw [h₁] at h3
  simp only [count_cons, reduceCtorEq, if_false, if_true] at h3
  omega

theorem Inv.fileblank (hb : .blank f ∈ (G p).1) :
    Next (s.setFile f { s.file f with ref := 0, type := .none }) G p
      (Moves ({.fref f} + {.blank f}) 0 (G p)) := by
  obtain ⟨T, hT, hnone⟩ := h.blank_split hb
  obtain ⟨hr, htype⟩ := h.blanks.blank p f hb
  have hown : (s.file f).owns = 0 := owns_of_none htype
  have hown' : File.owns { s.file f with ref := 0, type := .none } = 0 := rfl
  refine h.setFile hoff hT (fun ip => by simp [hown, hown']) (fun pi w => by simp [hown, hown'])
    (by simp [hr]) (fun g hg => by simp [hg]) ?_ nofun ?_
  · rintro r (rfl | ⟨ip, rfl⟩ | ⟨b, rfl⟩) <;> simp
  · exact Blanks.setFile h hoff hT (fun _ => rfl) (fun g => by simp) (fun g hg => by simp [hg]) hnone
      fun q hq => h.not_blank hq (h.fref_of_blank hb)

theorem Inv.fill (hx : x.OneEnd) (hT : (G p).1 = {.blank f} + x.owns + T) :
    Next (s.setFile f { x with ref := (s.file f).ref }) G p (Moves ({.blank f} + x.owns) 0 (G p)) := by
  have hb : .blank f ∈ (G p).1 := by simp [hT]
  obtain ⟨hr, htype⟩ := h.blanks.blank p f hb
  have hown : (s.file f).owns = 0 := owns_of_none htype
  have hown' : File.owns { x with ref := (s.file f).ref } = x.owns := rfl
  refine h.setFile hoff hT (fun ip => by simp [hown, hown']) (fun pi w => by simp [hown, hown'])
    (by simp) (fun g hg => by simp) ?_ hx ?_
  · rintro r (rfl | ⟨ip, rfl⟩ | ⟨b, rfl⟩) <;> simp
  · refine Blanks.setFile h hoff hT ?_ (fun g => by simp) (fun g hg => by simp) ?_
      fun q hq => h.not_blank hq (h.fref_of_blank hb)
    · intro h0
      simp only [hr] at h0
      omega
    · obtain ⟨T', hT', hnone⟩ := h.blank_split hb
      intro hm
      have h1 : (G p).1.count (.blank f) = 1 := by
        rw [hT']
        simp [count_eq_zero.mpr hnone]
      have h2 := count_pos.mpr hm
      rw [hT] at h1
      simp only [count_add, count_singleton_self] at h1
      omega

theorem Inv.setOff (off : Nat) : Next (s.setFile f { s.file f with off }) G p (· = G p) := by
  have hfile (g : FileNo) : ((s.setFile f { s.file f with off }).file g).ref = (s.file g).ref ∧
      ((s.setFile f { s.file f with off }).file g).type = (s.file g).type := by
    by_cases hg : g = f
    · subst hg
      simp [State.setFile]
    · simp [State.setFile, hg]
  have hnext := h.setFile (f := f) (x := { s.file f with off }) hoff
    (zero_add (G p).1).symm (fun ip => by simp [File.owns]) (fun pi w => by simp [File.owns])
    (by simp) (fun g hg => rfl) (fun r _ => rfl) (h.ends f)
    (h.blanks.moves (zero_add (G p).1).symm _ hfile (fun _ => rfl) fun _ => rfl)
  refine hnext.mono ?_
  rintro ⟨X, e⟩ ⟨T, hT, rfl, rfl⟩
  exact Prod.ext hT.symm rfl

end Files

end ZeptOS.Fs
