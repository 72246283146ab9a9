import ZeptOS.Fs.System

/-!
# References are counted, in every interleaving

The operations on pipes and on the entries of `proc`, and then all operations together: what the
rules allow keeps the books (`Inv.step`). So the calls, which keep to the rules on every path, keep
them whatever the others do meanwhile, and what is true of the books is true of the tables whenever
all processes are between calls.
-/

namespace ZeptOS.Fs

open Lib Lib.Code Function Multiset

variable {x : Pipe} {w : Bool} {s : State} {X : Multiset Token} {G : Proc → Ledger} {p q np : Proc}

/-! ## Pipes -/

theorem opened_closeEnd (x : Pipe) (w w' : Bool) :
    opened (State.closeEnd x w) w' = if w' = w then 0 else opened x w' := by
  obtain ⟨r, v, a, f⟩ := x
  cases w <;> cases w' <;> cases r <;> cases v <;> rfl

theorem page_closeEnd (ho : x.isOpen w = true)
    (hx : x.kallocs = x.kfrees + if x.readopen ∨ x.writeopen then 1 else 0) :
    (State.closeEnd x w).kallocs = (State.closeEnd x w).kfrees +
      if (State.closeEnd x w).readopen ∨ (State.closeEnd x w).writeopen then 1 else 0 := by
  obtain ⟨r, v, a, f⟩ := x
  cases w <;> cases r <;> cases v <;> simp_all [State.closeEnd, Pipe.isOpen]

variable {T : Multiset Token}

section Pipes

variable {pi : Nat} (h : Inv s G) (hoff : ¬(G p).Off)
include h hoff

theorem Inv.setPipe {take give : Multiset Token} (hT : (G p).1 = take + T)
    (hend : ∀ w, opened x w + take.count (.pend pi w) =
      opened (s.pipe pi) w + give.count (.pend pi w))
    (hrest : ∀ r, (∀ w, r ≠ .pend pi w) → take.count r = give.count r)
    (hpage : x.kallocs = x.kfrees + if x.readopen ∨ x.writeopen then 1 else 0) :
    Next (s.setPipe pi x) G p (Moves take give (G p)) := by
  refine .of_moves hoff hT ⟨?_, ?_, h.procs.moves hoff (by rfl) (by rfl) (by rfl) _, fun pi' => ?_,
    h.ends⟩
  · refine h.books.moves hT _ (fun ip => ?_) (fun f => ?_) (fun pi' w => ?_) (fun q => ?_)
      (fun q ip => ?_) fun q b => ?_
    · rw [hrest _ (by simp)]
      rfl
    · rw [hrest _ (by simp)]
      rfl
    · show opened (update s.pipe pi x pi') w + _ + slots s _ = _ + slots s _
      by_cases hpi : pi' = pi
      · subst hpi
        rw [update_self, hend]
      · rw [update_of_ne hpi, hrest _ (by simp [hpi])]
    · rw [hrest _ (by simp)]
      rfl
    · rw [hrest _ (by simp)]
      rfl
    · rw [hrest _ (by simp)]
      rfl
  · exact h.blanks.moves hT _ (fun f => ⟨rfl, rfl⟩) (fun f => hrest _ (by simp))
      fun f => hrest _ (by simp)
  · by_cases hpi : pi' = pi
    · subst hpi
      simpa [State.setPipe] using hpage
    · simpa [State.setPipe, hpi] using h.pages pi'

theorem Inv.pipeKalloc (hfree : (s.pipe pi).kallocs = (s.pipe pi).kfrees) :
    Next (s.setPipe pi ⟨true, true, (s.pipe pi).kallocs + 1, (s.pipe pi).kfrees⟩) G p
      (Moves 0 ({.pend pi false} + {.pend pi true}) (G p)) := by
  have hclosed : (s.pipe pi).readopen = false ∧ (s.pipe pi).writeopen = false := by
    have hpg := h.pages pi
    split at hpg
    · omega
    · next hno => simpa using hno
  refine h.setPipe hoff (zero_add _).symm (fun w => ?_) (fun r hr => ?_) (by simp [hfree])
  · cases w <;> simp [opened, Pipe.isOpen, hclosed]
  · have h0 := hr false
    have h1 := hr true
    simp [h0, h1]

theorem Inv.pipeclose (hT : (G p).1 = {.pend pi w} + T) :
    Next (s.setPipe pi (State.closeEnd (s.pipe pi) w)) G p (Moves {.pend pi w} 0 (G p)) := by
  -- who has the token has an open end
  have hopen : (s.pipe pi).isOpen w = true := by
    have hb := h.books.pend pi w
    have hle : (G p).1.count (.pend pi w) ≤ total G (.pend pi w) :=
      Finset.single_le_sum (f := fun q => (G q).1.count (.pend pi w)) (fun _ _ => Nat.zero_le _)
        (Finset.mem_univ p)
    rw [hT, count_add, count_singleton_self] at hle
    unfold opened at hb
    split at hb
    · assumption
    · omega
  refine h.setPipe hoff hT (fun w' => ?_) (fun r hr => by simp [hr w])
    (page_closeEnd hopen (h.pages pi))
  rw [opened_closeEnd]
  by_cases hw : w' = w
  · subst hw
    simp [opened, hopen]
  · simp [hw]

end Pipes

/-! ## Processes -/

variable {k : Kid} {e : Private}

section Procs

variable {s' : State} {G' : Proc → Ledger}

theorem Inv.of_tokens (h : Inv s G) (hG : ∀ q, (G' q).1 = (G q).1) (hi : s'.ident = s.ident)
    (hf : s'.file = s.file) (hp : s'.pipe = s.pipe) (hb : s'.begun = s.begun)
    (hl : s'.lock = s.lock) (hu : s'.buf = s.buf) (hP : Procs s' G') : Inv s' G' := by
  have htotal (r : Token) : total G' r = total G r := by simp only [total, hG]
  have hslots (r : Token) : slots s' r = slots s r := by simp only [slots, hf]
  refine ⟨⟨?_, ?_, ?_, ?_, ?_, ?_⟩, ⟨?_, ?_, ?_⟩, hP, ?_, ?_⟩
  · simpa only [hi, hslots, htotal] using h.books.iref
  · simpa only [hf, htotal] using h.books.fref
  · simpa only [hp, hslots, htotal] using h.books.pend
  · simpa only [hb, hG] using h.books.tx
  · simpa only [hl, hG] using h.books.lock
  · simpa only [hu, hG] using h.books.buf
  · simpa only [hf] using h.blanks.zero
  · simpa only [hG] using h.blanks.once
  · simpa only [hf, hG] using h.blanks.blank
  · simpa only [hp] using h.pages
  · simpa only [hf] using h.ends

theorem fst_update (G : Proc → Ledger) (p : Proc) (e : Private) (q : Proc) :
    (update G p ((G p).1, e) q).1 = (G q).1 := by
  by_cases hq : q = p
  · subst hq
    rw [update_self]
  · rw [update_of_ne hq]

theorem Procs.kid_ne (h : Procs s G) (hoff : ¬(G p).Off) (hk : (G q).2.kid = some k) :
    k.np ≠ p := by
  rintro rfl
  exact hoff (.inr ((h.pstate _).trans (h.kid q k hk).1))

/-- The ledgers of the one that runs and of the one that it makes. -/
def both (G : Proc → Ledger) (p np : Proc) (g gn : Ledger) : Proc → Ledger :=
  Function.update (Function.update G np gn) p g

section Both

variable {g gn : Ledger}

@[simp] theorem both_self : both G p np g gn p = g := update_self ..

theorem both_kid (h : np ≠ p) : both G p np g gn np = gn := by
  rw [both, update_of_ne h, update_self]

theorem both_of_ne (hp : q ≠ p) (hnp : q ≠ np) : both G p np g gn q = G q := by
  rw [both, update_of_ne hp, update_of_ne hnp]

theorem both_cases (p np : Proc) {P : Proc → Prop} (hp : P p) (hnp : P np) (h : ∀ q, q ≠ p → q ≠ np → P q)
    (q : Proc) : P q := by
  by_cases hq : q = p
  · exact hq ▸ hp
  · by_cases hq' : q = np
    · exact hq' ▸ hnp
    · exact h q hq hq'

theorem Procs.both (h : Procs s G) (hoff : ¬(G p).Off) (hne : np ≠ p)
    (hps : s'.pstate np = gn.2.pstate) (hof : s'.ofile np = gn.2.ofile)
    (hcw : s'.cwd np = gn.2.cwd) (hgp : { g.2 with kid := none } = { (G p).2 with kid := none })
    (hgn : gn.2.kid = none) (hused : gn.2.pstate = .used → gn.1 = 0)
    (hunused : gn.2.pstate ≠ .unused)
    (hkid : ∀ k, g.2.kid = some k → k.np = np ∧ gn.2.pstate = .used ∧ k.ofile = gn.2.ofile ∧
      k.cwd = gn.2.cwd)
    (hnew : gn.2.pstate = .used → g.2.kid ≠ none)
    (hold : ∀ k, (G p).2.kid = some k → k.np = np) (hnp : (G np).2.kid = none)
    (huse : ∀ q k, q ≠ p → (G q).2.kid = some k → k.np ≠ np)
    (hother : ∀ q, q ≠ np →
      s'.pstate q = s.pstate q ∧ s'.ofile q = s.ofile q ∧ s'.cwd q = s.cwd q) :
    Procs s' (Fs.both G p np g gn) := by
  simp only [Private.mk.injEq, and_true] at hgp
  obtain ⟨hgps, hgof, hgcw⟩ := hgp
  obtain ⟨hpps, hpof, hpcw⟩ := hother p hne.symm
  have hkids {q : Proc} {k : Kid} (hk : (Fs.both G p np g gn q).2.kid = some k) :
      (q = p ∧ g.2.kid = some k) ∨ (q ≠ p ∧ k.np ≠ np ∧ (G q).2.kid = some k) := by
    by_cases hq : q = p
    · subst hq
      rw [both_self] at hk
      exact .inl ⟨rfl, hk⟩
    · by_cases hq' : q = np
      · subst hq'
        rw [both_kid hq] at hk
        exact nomatch hgn.symm.trans hk
      · rw [both_of_ne hq hq'] at hk
        exact .inr ⟨hq, huse q k hq hk, hk⟩
  refine ⟨both_cases p np ?_ ?_ fun q hq hq' => ?_, both_cases p np ?_ ?_ fun q hq hq' => ?_,
    both_cases p np ?_ ?_ fun q hq hq' => ?_, fun q k hk => ?_, fun q q' k l hk hl hkl => ?_,
    both_cases p np (fun hq => ?_) (fun hq => ?_) fun q hq hq' hu => ?_,
    both_cases p np (fun hq => ?_) (fun hq => ?_) fun q hq hq' hu => ?_, fun q hq => ?_⟩
  · rw [both_self, hgps, hpps, h.pstate]
  · rw [both_kid hne, hps]
  · rw [both_of_ne hq hq', (hother q hq').1, h.pstate]
  · rw [both_self, hgof, hpof, h.ofile]
  · rw [both_kid hne, hof]
  · rw [both_of_ne hq hq', (hother q hq').2.1, h.ofile]
  · rw [both_self, hgcw, hpcw, h.cwd]
  · rw [both_kid hne, hcw]
  · rw [both_of_ne hq hq', (hother q hq').2.2, h.cwd]
  · rcases hkids hk with ⟨rfl, hk'⟩ | ⟨-, hkne, hk⟩
    · obtain ⟨hknp, hkps, hkof, hkcw⟩ := hkid k hk'
      rw [hknp, hps, hof, hcw]
      exact ⟨hkps, hkof.symm, hkcw.symm⟩
    · obtain ⟨h1, h2, h3⟩ := hother k.np hkne
      rw [h1, h2, h3]
      exact h.kid q k hk
  · rcases hkids hk with ⟨rfl, hk'⟩ | ⟨-, hkne, hk⟩
    · rcases hkids hl with ⟨rfl, -⟩ | ⟨-, hlne, -⟩
      · rfl
      · exact absurd (hkl.symm.trans (hkid k hk').1) hlne
    · rcases hkids hl with ⟨rfl, hl'⟩ | ⟨-, -, hl⟩
      · exact absurd (hkl.trans (hkid l hl').1) hkne
      · exact h.kids q q' k l hk hl hkl
  · exact absurd (.inl ((h.pstate p).trans (hpps.symm.trans hq))) hoff
  · exact absurd (hps.symm.trans hq) hunused
  · rw [both_of_ne hq hq']
    exact h.unused q ((hother q hq').1 ▸ hu)
  · exact absurd (.inr ((h.pstate p).trans (hpps.symm.trans hq))) hoff
  · rw [both_kid hne]
    exact ⟨hused (hps.symm.trans hq), hgn⟩
  · rw [both_of_ne hq hq']
    exact h.used q ((hother q hq').1 ▸ hu)
  · by_cases hqnp : q = np
    · subst hqnp
      obtain ⟨k, hk⟩ := Option.ne_none_iff_exists'.mp (hnew (hps.symm.trans hq))
      exact ⟨p, k, by rw [both_self, hk], (hkid k hk).1⟩
    · -- its parent is neither of the two
      obtain ⟨r, k, hk, hkq⟩ := h.parent q ((hother q hqnp).1 ▸ hq)
      have hrp : r ≠ p := by
        rintro rfl
        exact hqnp (hkq.symm.trans (hold k hk))
      have hrnp : r ≠ np := by
        rintro rfl
        exact nomatch hnp.symm.trans hk
      exact ⟨r, k, by rw [both_of_ne hrp hrnp, hk], hkq⟩

end Both

theorem Procs.own (h : Procs s G) (hps : s'.pstate p = e.pstate) (hof : s'.ofile p = e.ofile)
    (hcw : s'.cwd p = e.cwd) (hkid : e.kid = (G p).2.kid)
    (hne : ∀ q k, (G q).2.kid = some k → k.np ≠ p) (hunused : e.pstate = .unused → Vacant X e)
    (hused : e.pstate ≠ .used) (hother : ∀ q, q ≠ p →
      s'.pstate q = s.pstate q ∧ s'.ofile q = s.ofile q ∧ s'.cwd q = s.cwd q) :
    Procs s' (update G p (X, e)) := by
  have hkids (q : Proc) : (update G p (X, e) q).2.kid = (G q).2.kid := by
    by_cases hq : q = p
    · subst hq
      rw [update_self, hkid]
    · rw [update_of_ne hq]
  refine ⟨fun q => ?_, fun q => ?_, fun q => ?_, fun q k hk => ?_, fun q q' k l hk hl => ?_,
    fun q hu => ?_, fun q hu => ?_, fun q hu => ?_⟩
  · by_cases hq : q = p
    · subst hq
      rw [update_self, hps]
    · rw [update_of_ne hq, (hother q hq).1, h.pstate]
  · by_cases hq : q = p
    · subst hq
      rw [update_self, hof]
    · rw [update_of_ne hq, (hother q hq).2.1, h.ofile]
  · by_cases hq : q = p
    · subst hq
      rw [update_self, hcw]
    · rw [update_of_ne hq, (hother q hq).2.2, h.cwd]
  · rw [hkids] at hk
    obtain ⟨h1, h2, h3⟩ := hother k.np (hne q k hk)
    rw [h1, h2, h3]
    exact h.kid q k hk
  · rw [hkids] at hk hl
    exact h.kids q q' k l hk hl
  · by_cases hq : q = p
    · subst hq
      rw [update_self]
      exact hunused (hps.symm.trans hu)
    · rw [update_of_ne hq]
      exact h.unused q ((hother q hq).1 ▸ hu)
  · by_cases hq : q = p
    · subst hq
      exact absurd (hps.symm.trans hu) hused
    · rw [update_of_ne hq]
      exact h.used q ((hother q hq).1 ▸ hu)
  · have hq : q ≠ p := by
      rintro rfl
      exact hused (hps.symm.trans hu)
    obtain ⟨q', k, hk, hkq⟩ := h.parent q ((hother q hq).1 ▸ hu)
    exact ⟨q', k, by rw [hkids, hk], hkq⟩

variable (h : Inv s G) (hoff : ¬(G p).Off)
include h hoff

theorem Inv.ownEntry (hps : s'.pstate p = e.pstate) (hof : s'.ofile p = e.ofile)
    (hcw : s'.cwd p = e.cwd) (hkid : e.kid = (G p).2.kid)
    (hon : e.pstate ≠ .unused ∧ e.pstate ≠ .used) (hother : ∀ q, q ≠ p →
      s'.pstate q = s.pstate q ∧ s'.ofile q = s.ofile q ∧ s'.cwd q = s.cwd q)
    (hi : s'.ident = s.ident) (hf : s'.file = s.file) (hp : s'.pipe = s.pipe)
    (hb : s'.begun = s.begun) (hl : s'.lock = s.lock) (hu : s'.buf = s.buf) :
    Next s' G p (· = ((G p).1, e)) := by
  refine ⟨update G p ((G p).1, e), ?_, update_self .., ?_,
    fun u hu => .inl (update_of_ne hu _ _)⟩
  · exact h.of_tokens (fst_update G p e) hi hf hp hb hl hu
      (h.procs.own hps hof hcw hkid (fun _ _ hk => h.procs.kid_ne hoff hk)
        (fun h0 => absurd h0 hon.1) hon.2 hother)
  · rw [update_self]
    rintro (h0 | h0)
    · exact hon.1 h0
    · exact hon.2 h0

omit h in
theorem on_of_not_off : (G p).2.pstate ≠ .unused ∧ (G p).2.pstate ≠ .used :=
  ⟨fun h => hoff (.inl h), fun h => hoff (.inr h)⟩

theorem Inv.setOfile (fd : Nat) (x : Option FileNo) : Next (s.setOfile p fd x) G p
    (· = ((G p).1, { (G p).2 with ofile := update (G p).2.ofile fd x })) := by
  refine h.ownEntry hoff (h.procs.pstate p).symm ?_ (h.procs.cwd p).symm rfl (on_of_not_off hoff)
    (fun q hq => ⟨rfl, by simp [State.setOfile, hq], rfl⟩) rfl rfl rfl rfl rfl rfl
  simp [State.setOfile, h.procs.ofile]

theorem Inv.setCwd (x : Option Slot) :
    Next (s.setCwd p x) G p (· = ((G p).1, { (G p).2 with cwd := x })) := by
  refine h.ownEntry hoff (h.procs.pstate p).symm (h.procs.ofile p).symm ?_ rfl (on_of_not_off hoff)
    (fun q hq => ⟨rfl, rfl, by simp [State.setCwd, hq]⟩) rfl rfl rfl rfl rfl rfl
  simp [State.setCwd]

theorem Inv.zombie :
    Next (s.setPstate p .zombie) G p (· = ((G p).1, { (G p).2 with pstate := .zombie })) := by
  refine h.ownEntry hoff ?_ (h.procs.ofile p).symm (h.procs.cwd p).symm rfl ⟨nofun, nofun⟩
    (fun q hq => ⟨by simp [State.setPstate, hq], rfl, rfl⟩) rfl rfl rfl rfl rfl rfl
  simp [State.setPstate]

/-- A store to the entry of a process that is being made. `K` is what is known of it then. -/
theorem Inv.kidEntry (np : Proc) (e : Private) (K : Kid) (hnp : K.np = np) (hoffnp : (G np).Off)
    (huse : ∀ q k, q ≠ p → (G q).2.kid = some k → k.np ≠ np)
    (hps : s'.pstate np = .used) (he : e.pstate = .used) (hof : s'.ofile np = e.ofile)
    (hcw : s'.cwd np = e.cwd) (hkof : K.ofile = e.ofile) (hkcw : K.cwd = e.cwd)
    (hkid : e.kid = none) (htok : (G np).1 = 0)
    (hold : ∀ k, (G p).2.kid = some k → k.np = np) (hkidnp : (G np).2.kid = none)
    (hother : ∀ q, q ≠ np → s'.pstate q = s.pstate q ∧ s'.ofile q = s.ofile q ∧ s'.cwd q = s.cwd q)
    (hi : s'.ident = s.ident) (hf : s'.file = s.file) (hp : s'.pipe = s.pipe)
    (hb : s'.begun = s.begun) (hl : s'.lock = s.lock) (hu : s'.buf = s.buf) :
    Next s' G p (· = ((G p).1, { (G p).2 with kid := some K })) := by
  have hne : np ≠ p := by
    rintro rfl
    exact hoff hoffnp
  refine ⟨both G p np ((G p).1, { (G p).2 with kid := some K }) ((G np).1, e), ?_, both_self, ?_,
    fun u hu => ?_⟩
  · refine h.of_tokens (both_cases p np ?_ ?_ fun q hq hq' => ?_) hi hf hp hb hl hu
      (h.procs.both hoff hne (hps.trans he.symm) hof hcw rfl hkid (fun _ => htok) (by simp [he]) ?_
        (fun _ => nofun) hold hkidnp huse hother)
    · rw [both_self]
    · rw [both_kid hne]
    · rw [both_of_ne hq hq']
    · intro k hk
      obtain rfl := Option.some.inj hk
      exact ⟨hnp, he, hkof, hkcw⟩
  · rw [both_self]
    exact hoff
  · by_cases hunp : u = np
    · subst hunp
      refine .inr ⟨hoffnp, ?_⟩
      rw [both_kid hne]
      simp only [Ledger.Rest, he]
      exact ⟨htok, hkid⟩
    · exact .inl (both_of_ne hu hunp)

theorem Inv.allocproc (hk : (G p).2.kid = none) (hnp : s.pstate np = .unused) :
    Next (s.setPstate np .used) G p fun g => ∃ o, (∀ fd, fd < NOFILE → o fd = none) ∧
      g = ((G p).1, { (G p).2 with kid := some ⟨np, o, none⟩ }) := by
  have hv := h.procs.unused np hnp
  have hnext : Next (s.setPstate np .used) G p
      (· = ((G p).1, { (G p).2 with kid := some ⟨np, s.ofile np, none⟩ })) := by
    refine h.kidEntry hoff np { (G np).2 with pstate := .used } ⟨np, s.ofile np, none⟩ rfl
      (.inl ((h.procs.pstate np).trans hnp)) ?_ (by simp [State.setPstate]) rfl
      (h.procs.ofile np).symm (h.procs.cwd np).symm (h.procs.ofile np).symm hv.cwd.symm hv.kid hv.owed
      (by simp [hk]) hv.kid
      (fun q hq => ⟨by simp [State.setPstate, hq], rfl, rfl⟩) rfl rfl rfl rfl rfl rfl
    rintro q k - hk rfl
    exact nomatch hnp.symm.trans (h.procs.kid q k hk).1
  refine hnext.mono fun g hg => ⟨s.ofile np, ?_, hg⟩
  intro fd hfd
  rw [← h.procs.ofile]
  exact hv.ofile fd hfd

omit hoff in
theorem Inv.kid_facts (hk : (G p).2.kid = some k) :
    (G k.np).Off ∧ (G k.np).1 = 0 ∧ (G k.np).2.kid = none ∧
      ∀ q l, q ≠ p → (G q).2.kid = some l → l.np ≠ k.np := by
  obtain ⟨hu, -, -⟩ := h.procs.kid p k hk
  obtain ⟨htok, hkid⟩ := h.procs.used k.np hu
  exact ⟨.inr ((h.procs.pstate _).trans hu), htok, hkid,
    fun q l hq hl hlk => hq (h.procs.kids q p l k hl hk hlk)⟩

theorem Inv.childOfile (hk : (G p).2.kid = some k) (fd : Nat) (f : FileNo) :
    Next (s.setOfile k.np fd (some f)) G p fun g => ∃ k', (G p).2.kid = some k' ∧
      g = ((G p).1, { (G p).2 with
        kid := some { k' with ofile := update k'.ofile fd (some f) } }) := by
  obtain ⟨hoffnp, htok, hkid, huse⟩ := h.kid_facts hk
  obtain ⟨hu, ho, hc⟩ := h.procs.kid p k hk
  have hold (l : Kid) (hl : (G p).2.kid = some l) : l.np = k.np := by
    rw [Option.some.inj (hk.symm.trans hl)]
  refine Next.mono (R := (· = ((G p).1, { (G p).2 with
    kid := some { k with ofile := update k.ofile fd (some f) } }))) ?_
    fun g hg => ⟨k, hk, hg⟩
  refine h.kidEntry hoff k.np { (G k.np).2 with ofile := update k.ofile fd (some f) }
    { k with ofile := update k.ofile fd (some f) } rfl hoffnp huse hu
    ((h.procs.pstate _).trans hu) ?_ (h.procs.cwd _).symm rfl ?_ hkid htok
    hold hkid (fun q hq => ⟨rfl, by simp [State.setOfile, hq], rfl⟩) rfl rfl rfl rfl rfl rfl
  · simp [State.setOfile, ho]
  · exact hc.symm.trans (h.procs.cwd _).symm

theorem Inv.childCwd (hk : (G p).2.kid = some k) (ip : Slot) :
    Next (s.setCwd k.np (some ip)) G p fun g => ∃ k', (G p).2.kid = some k' ∧
      g = ((G p).1, { (G p).2 with kid := some { k' with cwd := some ip } }) := by
  obtain ⟨hoffnp, htok, hkid, huse⟩ := h.kid_facts hk
  obtain ⟨hu, ho, hc⟩ := h.procs.kid p k hk
  have hold (l : Kid) (hl : (G p).2.kid = some l) : l.np = k.np := by
    rw [Option.some.inj (hk.symm.trans hl)]
  refine Next.mono (R := (· = ((G p).1, { (G p).2 with kid := some { k with cwd := some ip } }))) ?_
    fun g hg => ⟨k, hk, hg⟩
  refine h.kidEntry hoff k.np { (G k.np).2 with cwd := some ip } { k with cwd := some ip } rfl
    hoffnp huse hu ((h.procs.pstate _).trans hu) (h.procs.ofile _).symm ?_ ?_ rfl hkid htok
    hold hkid (fun q hq => ⟨rfl, rfl, by simp [State.setCwd, hq]⟩) rfl rfl rfl rfl rfl rfl
  · simp [State.setCwd]
  · exact ho.symm.trans (h.procs.ofile _).symm

omit hoff in
theorem Inv.gives {e' : Private} (hne : np ≠ p) (htok : (G np).1 = 0)
    (hquiet : ∀ r ∈ (G p).1, r.Quiet) (hT : (G p).1 = X + T) (hi : s'.ident = s.ident)
    (hf : s'.file = s.file) (hp : s'.pipe = s.pipe) (hb : s'.begun = s.begun)
    (hl : s'.lock = s.lock) (hu : s'.buf = s.buf) (hP : Procs s' (both G p np (T, e) (X, e'))) :
    Inv s' (both G p np (T, e) (X, e')) := by
  have htotal (r : Token) : total (both G p np (T, e) (X, e')) r = total G r := by
    have h1 := total_update G np (X, e') r
    have h2 := total_update (update G np (X, e')) p (T, e) r
    rw [update_of_ne hne.symm] at h2
    simp only [htok, count_zero] at h1
    simp only [hT, count_add] at h2
    unfold both
    omega
  have hslots (r : Token) : slots s' r = slots s r := by simp only [slots, hf]
  -- what keeps others out stays where it is: it is with neither of the two
  have hcount {r : Token} (hr : ¬r.Quiet) (q : Proc) :
      (both G p np (T, e) (X, e') q).1.count r = (G q).1.count r := by
    have hp0 : (G p).1.count r = 0 := count_eq_zero.mpr fun hm => hr (hquiet r hm)
    have hp1 := hp0
    rw [hT, count_add] at hp1
    refine both_cases p np (P := fun q => (both G p np (T, e) (X, e') q).1.count r = (G q).1.count r)
      ?_ ?_ (fun q hq hq' => ?_) q
    · rw [both_self, hp0]
      exact (Nat.add_eq_zero_iff.mp hp1).2
    · rw [both_kid hne, htok, count_zero]
      exact (Nat.add_eq_zero_iff.mp hp1).1
    · rw [both_of_ne hq hq']
  refine ⟨⟨?_, ?_, ?_, ?_, ?_, ?_⟩, ⟨?_, ?_, ?_⟩, hP, ?_, ?_⟩
  · simpa only [hi, hslots, htotal] using h.books.iref
  · simpa only [hf, htotal] using h.books.fref
  · simpa only [hp, hslots, htotal] using h.books.pend
  · intro q
    rw [hb, hcount (by exact id), h.books.tx]
  · intro q ip
    rw [hl, hcount (by exact id), h.books.lock]
  · intro q b
    rw [hu, hcount (by exact id), h.books.buf]
  · simpa only [hf] using h.blanks.zero
  · refine both_cases p np (fun f => ?_) (fun f => ?_) fun q hq hq' => ?_
    · have hp0 : (G p).1.count (.blank f) = 0 := count_eq_zero.mpr (hquiet (.blank f))
      rw [hcount (r := .blank f) (by exact id), hp0]
      exact Nat.zero_le _
    · rw [hcount (r := .blank f) (by exact id), htok, count_zero]
      exact Nat.zero_le _
    · rw [both_of_ne hq hq']
      exact h.blanks.once q
  · intro q f hm
    rw [hf]
    have hpos := count_pos.mpr hm
    rw [hcount (r := .blank f) (by exact id)] at hpos
    exact h.blanks.blank q f (count_pos.mp hpos)
  · simpa only [hp] using h.pages
  · simpa only [hf] using h.ends

theorem Inv.runnable (hk : (G p).2.kid = some k) (hcwd : k.cwd ≠ none)
    (hquiet : ∀ r ∈ (G p).1, r.Quiet) (hT : (G p).1 = fileRefs k.ofile + inodeRef k.cwd + T) :
    Next (s.setPstate k.np .live) G p fun g => ∃ k' T, (G p).2.kid = some k' ∧
      (G p).1 = fileRefs k'.ofile + inodeRef k'.cwd + T ∧ g = (T, { (G p).2 with kid := none }) := by
  obtain ⟨hoffnp, htok, hkid, huse⟩ := h.kid_facts hk
  obtain ⟨hu, ho, hc⟩ := h.procs.kid p k hk
  have hold (l : Kid) (hl : (G p).2.kid = some l) : l.np = k.np := by
    rw [Option.some.inj (hk.symm.trans hl)]
  have hne : k.np ≠ p := h.procs.kid_ne hoff hk
  refine ⟨both G p k.np (T, { (G p).2 with kid := none })
    (fileRefs k.ofile + inodeRef k.cwd, { (G k.np).2 with pstate := .live }),
    h.gives hne htok hquiet hT rfl rfl rfl rfl rfl rfl ?_, ?_, ?_, fun u hu => ?_⟩
  · refine h.procs.both hoff hne ?_ (h.procs.ofile _).symm (h.procs.cwd _).symm rfl hkid nofun nofun
      nofun nofun hold hkid huse fun q hq => ⟨by simp [State.setPstate, hq], rfl, rfl⟩
    simp [State.setPstate]
  · rw [both_self]
    exact ⟨k, T, hk, hT, rfl⟩
  · rw [both_self]
    exact hoff
  · by_cases hunp : u = k.np
    · subst hunp
      refine .inr ⟨hoffnp, ?_⟩
      rw [both_kid hne]
      refine ⟨rfl, hkid, ?_, ?_⟩
      · rw [h.procs.cwd, hc]
        exact hcwd
      · simp only [Private.owed]
        rw [h.procs.cwd, h.procs.ofile, hc, ho]
    · exact .inl (both_of_ne hu hunp)

end Procs

end ZeptOS.Fs
