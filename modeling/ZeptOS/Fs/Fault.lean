import ZeptOS.Fs.Logged

/-!
# A write that stops at a bad address

`either_copyin` copies page by page, straight into the buffer. When it fails, what it had copied by then
stays there, and `writei` gives the buffer back as it is, without `log_write`. So the cache holds bytes that
the caller is not told of, and if the block is not in the log already they are in no transaction.

`Traces` are runs with their trace; `Broke` is what a failed copy leaves of the disk. A write that fails
is honest exactly if the bytes in question were there before (`failed_write_honest_iff`).
-/

namespace ZeptOS.Fs

open Lib Lib.Code Function

variable {t t' t₁ : Trace} {α : Type} {E : Env} {p : Proc} {s s' : State}
  {b i m n x bn off tot : Nat} {ip : Slot} {d : Dinode} {sb : Superblock} {src : Src}

/-- Run from `s` with the trace `t`, the code ends with `Q`, or stops in a way that `E` allows. -/
def Traces {α : Type} (E : Env) (p : Proc) (x : FsM α) (Q : α → State → Trace → Prop) (s : State)
    (t : Trace) : Prop :=
  x.Obeys ((seq E p).noting Trace.after) (fun a g => Q a g.1 g.2) (s, t)

variable {Q : Unit → State → Trace → Prop}

section Rules

variable {β : Type}

theorem traces_pure {a : α} {Q : α → State → Trace → Prop} : Traces E p (pure a) Q s t ↔ Q a s t := Iff.rfl

theorem traces_bind {x : FsM α} {f : α → FsM β} {Q : β → State → Trace → Prop} :
    Traces E p (x >>= f) Q s t ↔ Traces E p x (fun a => Traces E p (f a) Q) s t :=
  Iff.of_eq (obeys_bind ((seq E p).noting Trace.after) x f)

theorem Traces.mono {x : FsM α} {Q R : α → State → Trace → Prop} (h : Traces E p x R s t)
    (hRQ : ∀ a s' t', R a s' t' → Q a s' t') : Traces E p x Q s t :=
  Obeys.mono _ h fun a g => hRQ a g.1 g.2

theorem Traces.call {x : FsM α} {f : α → FsM β} {R : α → State → Trace → Prop}
    {Q : β → State → Trace → Prop} (h : Traces E p x R s t)
    (hf : ∀ a s' t', R a s' t' → Traces E p (f a) Q s' t') : Traces E p (x >>= f) Q s t :=
  traces_bind.2 (h.mono hf)

theorem traces_op {o : Op} {Q : o.Ans → State → Trace → Prop}
    (h : Does E p (op o) (fun r s' => Q r s' (t.after o r)) s) : Traces E p (op o) Q s t := by
  refine ⟨h.1, ?_⟩
  rintro r ⟨s', t'⟩ ⟨hr, rfl⟩
  exact h.2 r s' hr

theorem Traces.intro {x : FsM α} {Q : α → State → Prop} {R : α → State → Trace → Prop}
    (h : Does E p x Q s) (h' : Notes p (fun _ => True) x R s t) :
    Traces E p x (fun a s' t' => Q a s' ∧ R a s' t') s t := by
  refine Obeys.and _ (Obeys.noting _ _ h t) h' ?_
  rintro g o r g' ⟨⟨ω, -, he⟩, hg⟩
  refine ⟨⟨ω, ?_, he⟩, hg⟩
  cases o <;> trivial

theorem Traces.of_does {x : FsM α} {Q : α → State → Prop} {R : α → State → Trace → Prop}
    (h : Does E p x Q s) (h' : Traces E p x R s t) :
    Traces E p x (fun a s' t' => Q a s' ∧ R a s' t') s t :=
  Obeys.and _ (Obeys.noting _ _ h t) h' fun _ _ _ _ hr => hr

theorem traces_bread {Q : Block → State → Trace → Prop} (h : s.buf b = none)
    (hq : Q (s.disk b) (s.setBuf b (some p)) t) : Traces E p (bread b) Q s t :=
  traces_op (does_bread h hq)

theorem traces_bstore {data : Block} (hq : Q () (s.setDisk b data) t) :
    Traces E p (bstore b data) Q s t :=
  traces_op (does_bstore hq)

theorem traces_logWrite (h : s.InTrans) (hq : Q () s (t.add b)) : Traces E p (logWrite b) Q s t :=
  traces_op (does_logWrite h hq)

theorem traces_brelse (h : s.buf b = some p) (hq : Q () (s.setBuf b none) t) :
    Traces E p (brelse b) Q s t :=
  traces_op (does_brelse h hq)

theorem traces_modifyNode {g : Dinode → Dinode} (hq : Q () (s.setNode ip { s.node ip with d := g (s.node ip).d }) t) :
    Traces E p (modifyNode ip g) Q s t :=
  traces_bind.2 (traces_op (does_node (traces_op (does_setNode hq))))

theorem traces_when {c : Prop} [Decidable c] {x : FsM Unit}
    (ht : c → Traces E p x Q s t) (hf : ¬c → Q () s t) : Traces E p (when c x) Q s t := by
  unfold when
  split
  · next hc => exact ht hc
  · next hc => exact hf hc

end Rules

/-! ## What a failed copy leaves -/

/-- A copy has failed that was for the block at offset `x` of the file. -/
structure Broke (s : State) (t : Trace) (ip : Slot) (x : Nat) (s' : State) (t' : Trace) : Prop where
  there : mapped s'.disk (s'.node ip).d (x / BSIZE) ≠ 0
  /-- all else that has changed is in the log -/
  rest : ∀ b, b ∉ t'.log → b ≠ mapped s'.disk (s'.node ip).d (x / BSIZE) → s'.disk b = s.disk b
  /-- the block is not, if it was there before -/
  old : mapped s.disk (s.node ip).d (x / BSIZE) ≠ 0 →
    mapped s.disk (s.node ip).d (x / BSIZE) ∈ t'.log → mapped s.disk (s.node ip).d (x / BSIZE) ∈ t.log
  new : mapped s.disk (s.node ip).d (x / BSIZE) = 0 →
    mapped s'.disk (s'.node ip).d (x / BSIZE) ∈ t'.log

variable {disk : Disk}

section

variable {ino : Nat → Dinode}

theorem fits_true (n : Nat) : Fits (fun _ => True) n := fun _ _ => trivial

/-- `bmap`, with what it logs: nothing for a block that is there, and the block if it is new. -/
theorem Editing.traces_bmap (h : Editing sb s ip ino) (hT : s.InTrans) (hbn : bn < MAXFILE) :
    Traces E p (bmap sb ip bn) (fun a s' t' => Maps sb s ip ino bn a s' ∧
      Logs sb s t (fun b => b = a ∨ b = (s'.node ip).d.addrs NDIRECT) s' t' ∧
      (mapped s.disk (s.node ip).d bn ≠ 0 → t' = t) ∧
      (mapped s.disk (s.node ip).d bn = 0 → a ≠ 0 → a ∈ t'.log)) s t := by
  refine Traces.intro (h.does_bmap hT hbn) ?_
  by_cases h0 : mapped s.disk (s.node ip).d bn = 0
  · refine (notes_bmap_new (fits_true _) le_rfl h0).mono fun a s' t' hm => ?_
    exact ⟨hm.logs, fun hc => absurd h0 hc, fun _ => hm.fresh⟩
  · refine (notes_bmap_there h0).mono ?_
    rintro a s' t' ⟨-, hs, rfl⟩
    exact ⟨hs.logs _, fun _ => rfl, fun hc => absurd hc h0⟩

theorem WellFormed.mapped_ne (hw : WellFormed sb ino disk) (hl : Live sb ino i) (hbn : bn < MAXFILE)
    (h0 : mapped disk (ino i) bn ≠ 0) :
    sb.datastart ≤ mapped disk (ino i) bn ∧ mapped disk (ino i) bn ≠ (ino i).addrs NDIRECT ∧
    ∀ bn', bn' < MAXFILE → bn' ≠ bn → mapped disk (ino i) bn ≠ mapped disk (ino i) bn' := by
  refine ⟨(hw.owned.area (i, place bn) ⟨hl, place_lt hbn⟩ h0).1, fun he => ?_, fun bn' hbn' hne he => ?_⟩
  · have hone := hw.owned.once (i, place bn) (i, NDIRECT) ⟨hl, place_lt hbn⟩ ⟨hl, ndirect_lt⟩
      (he.trans (entry_direct le_rfl).symm) h0
    exact place_ne (Prod.mk.inj hone).2
  · have hone := hw.owned.once (i, place bn) (i, place bn') ⟨hl, place_lt hbn⟩ ⟨hl, place_lt hbn'⟩ he h0
    exact hne (place_inj (Prod.mk.inj hone).2).symm

theorem Broke.cons {s₁ : State} (h : Broke s₁ t₁ ip x s' t') (hmono : t₁.log ⊆ t'.log)
    (hdisk : ∀ b, b ∉ t₁.log → s₁.disk b = s.disk b)
    (hsame : mapped s₁.disk (s₁.node ip).d (x / BSIZE) = mapped s.disk (s.node ip).d (x / BSIZE))
    (hlog : mapped s.disk (s.node ip).d (x / BSIZE) ≠ 0 →
      mapped s.disk (s.node ip).d (x / BSIZE) ∈ t₁.log →
      mapped s.disk (s.node ip).d (x / BSIZE) ∈ t.log) : Broke s t ip x s' t' where
  there := h.there
  rest b hb hne := (h.rest b hb hne).trans (hdisk b fun hc => hb (hmono hc))
  old h0 hmem := by
    have hold := h.old
    rw [hsame] at hold
    exact hlog h0 (hold h0 hmem)
  new h0 := h.new (hsame.trans h0)

structure Looped (sb : Superblock) (s : State) (t : Trace) (ip : Slot) (ino : Nat → Dinode)
    (off n tot : Nat) (r : Nat × Nat) (s' : State) (t' : Trace) : Prop where
  le : tot ≤ r.1
  at_ : r.2 = off + (r.1 - tot)
  state : ∃ disk d, s' = s.put disk ip d ∧ Editing sb s' ip (Function.update ino (s.ident ip).inum d)
  mono : t.log ⊆ t'.log
  broke : t'.fault = true → r.1 < n ∧ Broke s t ip r.2 s' t'

theorem Looped.none (hf : t'.fault = false)
    (hstate : ∃ disk d, s' = s.put disk ip d ∧ Editing sb s' ip (update ino (s.ident ip).inum d))
    (hmono : t.log ⊆ t'.log) : Looped sb s t ip ino off n tot (tot, off) s' t' :=
  ⟨le_rfl, by simp, hstate, hmono, fun hc => absurd (hc.symm.trans hf) (by decide)⟩

theorem Editing.looped_idle (h : Editing sb s ip ino) (hf : t.fault = false) :
    Looped sb s t ip ino off n tot (tot, off) s t := by
  refine .none hf ⟨s.disk, _, (put_self h.node).symm, ?_⟩ (Finset.Subset.refl _)
  rwa [update_eq_self]

theorem Looped.cons {r : Nat × Nat}
    (h : Looped sb (s.put disk ip d) t₁ ip (update ino (s.ident ip).inum d) (off + m) n
      (tot + m) r s' t') (hm : m = min (n - tot) (BSIZE - off % BSIZE)) (hmono : t.log ⊆ t₁.log)
    (hdisk : ∀ b, b ∉ t₁.log → disk b = s.disk b)
    (hsame : ∀ bn, off / BSIZE < bn → bn < MAXFILE → mapped disk d bn = mapped s.disk (s.node ip).d bn)
    (hlog : ∀ bn, off / BSIZE < bn → bn < MAXFILE → mapped s.disk (s.node ip).d bn ≠ 0 →
      mapped s.disk (s.node ip).d bn ∈ t₁.log → mapped s.disk (s.node ip).d bn ∈ t.log)
    (hend : off + (n - tot) ≤ MAXFILE * BSIZE) : Looped sb s t ip ino off n tot r s' t' := by
  have hle := h.le
  have hat := h.at_
  refine ⟨by omega, by omega, ?_, hmono.trans h.mono, fun hf => ?_⟩
  · obtain ⟨disk', d', rfl, hedit⟩ := h.state
    refine ⟨disk', d', put_put _ _ _ _ _ _, ?_⟩
    rw [show (s.put disk ip d).ident = s.ident from rfl, update_idem] at hedit
    exact hedit
  · obtain ⟨hlt, hbroke⟩ := h.broke hf
    -- the loop has gone on, so the next block begins there
    have hmod := mod_BSIZE_lt off
    have hdm := Nat.div_add_mod off BSIZE
    have hnext : off / BSIZE < r.2 / BSIZE := by
      refine (Nat.le_div_iff_mul_le (by decide)).mpr ?_
      rw [Nat.mul_comm, Nat.mul_succ]
      omega
    have hmax : r.2 / BSIZE < MAXFILE := Nat.div_lt_of_lt_mul (by rw [Nat.mul_comm]; omega)
    refine ⟨hlt, hbroke.cons h.mono hdisk ?_ (hlog _ hnext hmax)⟩
    rw [put_node]
    exact hsame _ hnext hmax

theorem traces_eitherCopyin {Q : Copied → State → Trace → Prop} (hf : t.fault = false)
    (hs : ∀ bs, Q ⟨bs, none⟩ s t) (hn : ∀ bs k, Q ⟨bs, some k⟩ s { t with fault := true }) :
    Traces E p (eitherCopyin src tot m) Q s t := by
  cases src with
  | kernel bs => exact hs _
  | user a =>
    refine traces_op (does_copyin fun c _ => ?_)
    obtain ⟨bs, fault⟩ := c
    obtain ⟨log, fault'⟩ := t
    obtain rfl : fault' = false := hf
    cases fault with
    | none => exact hs bs
    | some k => exact hn bs k

theorem Grows.mapped_write {disk' : Disk} (hg : sb.Geometry) (h : Grows sb ino i disk d disk')
    (hl : Live sb ino i) (hbn : bn < MAXFILE) (h0 : mapped disk' d bn ≠ 0) (data : Block)
    (bn' : Nat) : mapped (update disk' (mapped disk' d bn) data) d bn' = mapped disk' d bn' := by
  have hself : update ino i d i = d := update_self ..
  have hlive : Live sb (update ino i d) i := by
    refine ⟨hl.1, ?_⟩
    rw [hself, h.same]
    exact hl.2
  have hw := h.wf.writeBlock hg hlive hbn (by rwa [hself]) data
  rw [hself] at hw
  exact hw.2.2.1 (place bn')

/-- **The loop of `writei`**, with what it logs. -/
theorem Editing.traces_writeiFrom (h : Editing sb s ip ino) (hT : s.InTrans) {fuel : Nat}
    (htot : tot ≤ n) (hend : off + (n - tot) ≤ MAXFILE * BSIZE) (hf : t.fault = false) :
    Traces E p (writeiFrom sb ip src n fuel tot off) (Looped sb s t ip ino off n tot) s t := by
  induction fuel generalizing s t ino tot off with
  | zero => exact h.looped_idle hf
  | succ fuel ih =>
    unfold writeiFrom
    by_cases hlt : tot < n
    · rw [if_pos hlt]
      have hoff : off < MAXFILE * BSIZE := by omega
      have hbn : off / BSIZE < MAXFILE := Nat.div_lt_of_lt_mul (by rwa [Nat.mul_comm] at hoff)
      have hmod := mod_BSIZE_lt off
      have hd : (s.node ip).d = ino (s.ident ip).inum := by rw [h.node]
      refine (h.traces_bmap hT hbn).call ?_
      rintro a s₁ t₁ ⟨⟨d, disk, rfl, hgrow, rfl, -, honly⟩, hlogs, hthere, hfresh⟩
      have hf₁ : t₁.fault = false := hlogs.fault.trans hf
      have hedit := h.of_grows hgrow
      by_cases ha : mapped disk d (off / BSIZE) = 0
      · rw [if_pos ha]
        exact .none hf₁ ⟨disk, d, rfl, hedit⟩ hlogs.mono
      · rw [if_neg ha]
        refine traces_bind.2 (traces_bread (hedit.bufs _) ?_)
        dsimp only
        have hrel : ((s.put disk ip d).setBuf (mapped disk d (off / BSIZE)) (some p)).buf
            (mapped disk d (off / BSIZE)) = some p := update_self ..
        have hwrote := hgrow.mapped_write h.geometry h.live hbn ha
        refine traces_bind.2 (traces_eitherCopyin hf₁ (fun bs => ?_) fun bs k => ?_)
        · dsimp only
          refine traces_bind.2 (traces_bstore ?_)
          refine traces_bind.2 (traces_logWrite hT ?_)
          refine traces_bind.2 (traces_brelse hrel ?_)
          rw [rewritten _ _ _ (hedit.bufs _)]
          have hw := hgrow.writeBlock h.geometry h.live (Nat.min_le_right (n - tot) _) hoff ha bs
          have hmove := h.of_put hw.wf (by rw [hw.same]) hw.fits
          have hf₂ : (t₁.add (mapped disk d (off / BSIZE))).fault = false := hf₁
          refine (ih hmove hT (by omega) (by omega) hf₂).mono fun r s' t' hr => ?_
          refine hr.cons rfl (hlogs.mono.trans (Finset.subset_insert _ _)) (fun b hb => ?_)
            (fun bn hlt' hmax => ?_) (fun bn hlt' hmax h0 hmem => ?_) hend
          · have hb' : b ∉ insert (mapped disk d (off / BSIZE)) t₁.log := hb
            rw [Finset.mem_insert, not_or] at hb'
            exact (update_of_ne hb'.1 _ _).trans (hlogs.disk b hb'.2)
          · rw [hwrote, hd]
            exact honly _ (place_lt hmax) place_ne fun he => Nat.ne_of_gt hlt' (place_inj he)
          · -- the block was in its place before, and what has been logged is in others
            rw [hd] at h0 hmem ⊢
            have hplace : mapped disk d bn = mapped s.disk (ino (s.ident ip).inum) bn :=
              honly _ (place_lt hmax) place_ne fun he => Nat.ne_of_gt hlt' (place_inj he)
            have hlive : Live sb (update ino (s.ident ip).inum d) (s.ident ip).inum := hedit.live
            have hne := hgrow.wf.mapped_ne hlive hmax
            rw [update_self, hplace] at hne
            obtain ⟨hlo, hind, hothers⟩ := hne h0
            have hother := hothers _ hbn (Nat.ne_of_lt hlt')
            rcases Finset.mem_insert.mp hmem with he | hmem
            · exact absurd he hother
            · rcases hlogs.new _ hmem with hin | ⟨x, hx, he⟩ | he | he
              · exact hin
              · have := h.geometry.bitmap x hx
                omega
              · exact absurd he hother
              · rw [put_node] at he
                exact absurd he hind
        · dsimp only
          refine traces_bind.2 (traces_bstore ?_)
          refine traces_bind.2 (traces_brelse hrel ?_)
          rw [rewritten _ _ _ (hedit.bufs _)]
          have hm : min k (min (n - tot) (BSIZE - off % BSIZE)) ≤ BSIZE - off % BSIZE := by omega
          have hw := hgrow.writeBlock h.geometry h.live hm hoff ha bs
          have hmove := h.of_put hw.wf (by rw [hw.same]) hw.fits
          have hbroke : Broke s t ip off (s.put (update disk (mapped disk d (off / BSIZE))
              (Bytes.blit (disk (mapped disk d (off / BSIZE))) (off % BSIZE)
                (bs.slice 0 (min k (min (n - tot) (BSIZE - off % BSIZE)))))) ip d)
              { t₁ with fault := true } := by
            refine ⟨?_, fun b hb hne => ?_, fun h0 hmem => ?_, fun h0 => ?_⟩
            · rw [put_node]
              exact (hwrote _ _).trans_ne ha
            · rw [put_node] at hne
              have hne' : b ≠ mapped disk d (off / BSIZE) := fun he => hne (he.trans (hwrote _ _).symm)
              exact (update_of_ne hne' _ _).trans (hlogs.disk b hb)
            · rwa [hthere h0] at hmem
            · rw [put_node]
              exact (congrArg (· ∈ t₁.log) (hwrote _ _)).mpr (hfresh h0 ha)
          exact ⟨le_rfl, by simp, ⟨_, d, rfl, hmove⟩, hlogs.mono, fun _ => ⟨hlt, hbroke⟩⟩
    · rw [if_neg hlt]
      exact h.looped_idle hf

/-! ## `writei` -/

theorem traces_iupdate (hT : s.InTrans) (hbufs : ∀ b, s.buf b = none)
    (hq : Q () { s with disk := putInode sb s.disk (s.ident ip).inum (s.node ip).d }
      (t.add (sb.iblock (s.ident ip).inum))) : Traces E p (iupdate sb ip) Q s t := by
  refine traces_bind.2 (traces_op (does_ident ?_))
  refine traces_bind.2 (traces_bread (hbufs _) ?_)
  refine traces_bind.2 (traces_op (does_node ?_))
  refine traces_bind.2 (traces_bstore ?_)
  refine traces_bind.2 (traces_logWrite hT ?_)
  refine traces_brelse (update_self ..) ?_
  rw [rewritten s _ _ (hbufs _)]
  exact hq

theorem Broke.iupdate {n : Dinode} (h : Editing sb s ip ino)
    (hedit : Editing sb (s.put disk ip d) ip (update ino (s.ident ip).inum d))
    (hn : n.addrs = d.addrs) (hx : x / BSIZE < MAXFILE) (hb : Broke s t ip x (s.put disk ip d) t') :
    Broke s t ip x (s.put (putInode sb disk (s.ident ip).inum n) ip n)
      (t'.add (sb.iblock (s.ident ip).inum)) := by
  have hi := h.live.1
  have hbm := h.geometry.bmapstart_lt
  have hib := h.geometry.inodes _ hi
  have hd : (s.node ip).d = ino (s.ident ip).inum := by rw [h.node]
  have hun : Untouched disk (putInode sb disk (s.ident ip).inum n) d := by
    have hun := hedit.wf.untouched_of_table h.geometry
      (fun b hb => putInode_apply (d := n) h.geometry hi hb) hedit.live
    rwa [show ((s.put disk ip d).ident ip).inum = (s.ident ip).inum from rfl,
      update_self] at hun
  have hmap : mapped (putInode sb disk (s.ident ip).inum n) n (x / BSIZE) = mapped disk d (x / BSIZE) :=
    (entry_addrs hn _).trans (hun.entry _)
  obtain ⟨hthere, hrest, hold, hnew⟩ := hb
  rw [put_node] at hthere hrest hnew
  refine ⟨?_, fun b hb hne => ?_, fun h0 hmem => ?_, fun h0 => ?_⟩
  · rw [put_node]
    exact hmap.trans_ne hthere
  · rw [put_node] at hne
    have hb' : b ∉ insert (sb.iblock (s.ident ip).inum) t'.log := hb
    rw [Finset.mem_insert, not_or] at hb'
    refine (update_of_ne hb'.1 _ _).trans (hrest b hb'.2 fun he => hne ?_)
    exact he.trans hmap.symm
  · rcases Finset.mem_insert.mp hmem with he | hmem
    · rw [hd] at h0 he
      have hlo := (h.wf.mapped_ne h.live hx h0).1
      omega
    · exact hold h0 hmem
  · rw [put_node]
    exact Finset.mem_insert_of_mem ((congrArg (· ∈ t'.log) hmap).mpr (hnew h0))

/-- **`writei`**, with what it logs: when a copy has failed. -/
theorem Synced.traces_writei (h : Synced sb s) (hT : s.InTrans) (hr : 0 < (s.ident ip).ref)
    (hv : (s.node ip).valid = true) (hf : t.fault = false) (src : Src) (off n : Nat) :
    Traces E p (writei sb ip src off n) (fun r s' t' => t'.fault = true → t.log ⊆ t'.log ∧
      ∃ tot : Nat, r = tot ∧ tot < n ∧ Broke s t ip (off + tot) s' t') s t := by
  have hed := h.editing hr hv
  unfold writei
  refine traces_bind.2 (traces_op (does_enter (traces_bind.2 (traces_op (does_node ?_)))))
  dsimp only
  have hno {x : Int} {s' : State} : t.fault = true → t.log ⊆ t.log ∧ ∃ tot : Nat, x = tot ∧ tot < n ∧
      Broke s t ip (off + tot) s' t := fun hc => absurd (hc.symm.trans hf) (by decide)
  split
  · exact hno
  · split
    · exact hno
    · refine (hed.traces_writeiFrom hT (Nat.zero_le n) (by omega) hf).call ?_
      rintro ⟨tot, off'⟩ s₁ t₁ hloop
      obtain ⟨disk, d, rfl, hedit⟩ := hloop.state
      have hat : off' = off + (tot - 0) := hloop.at_
      rw [Nat.sub_zero] at hat
      subst hat
      refine traces_bind.2 (traces_op (does_node ?_))
      have hdone {n' : Dinode} (hn : n'.addrs = d.addrs) : Traces E p (iupdate sb ip >>= fun _ =>
          pure (tot : Int)) (fun r s' t' => t'.fault = true → t.log ⊆ t'.log ∧
            ∃ tot : Nat, r = tot ∧ tot < n ∧ Broke s t ip (off + tot) s' t') (s.put disk ip n') t₁ := by
        refine traces_bind.2 (traces_iupdate hT h.bufs ?_)
        rw [put_node]
        refine traces_pure.2 fun hfault => ?_
        obtain ⟨hlt, hbroke⟩ := hloop.broke hfault
        have hlt' : tot < n := hlt
        have hx : (off + tot) / BSIZE < MAXFILE := Nat.div_lt_of_lt_mul (by rw [Nat.mul_comm]; omega)
        exact ⟨hloop.mono.trans (Finset.subset_insert _ _), tot, rfl, hlt,
          hbroke.iupdate hed hedit hn hx⟩
      refine traces_bind.2 (traces_when (fun _ => ?_) fun _ => hdone rfl)
      refine traces_modifyNode ?_
      rw [put_node]
      have hset (n' : Dinode) : (s.put disk ip d).setNode ip ⟨true, n'⟩ = s.put disk ip n' := by
        simp [State.put, State.setNode]
      rw [hset]
      exact hdone rfl

end

/-! ## What the caller is told -/

/-- The first `g` bytes from `a` on can be read, and are `mem`. -/
def prefixMemory (a : Nat) (mem : Bytes) (g : Nat) : Env where
  stops _ := False
  copyin x m c :=
    c = ⟨fun j => mem (x - a + j), if x - a + m ≤ g then none else some (g - (x - a))⟩

section

variable {mem : Bytes} {a g : Nat}

/-- A write of which `g` bytes could be had, and `tot` were reported. -/
structure Failed (sb : Superblock) (s : State) (t : Trace) (ip : Slot) (mem : Bytes) (off g tot : Nat)
    (s' : State) (t' : Trace) : Prop where
  mono : t.log ⊆ t'.log
  broke : Broke s t ip (off + g) s' t'
  le : tot ≤ g
  /-- what was not reported is in one block -/
  block : ∀ k, k < g → ((off + k) / BSIZE = (off + g) / BSIZE ↔ tot ≤ k)
  start : off ≤ (s.node ip).d.size
  room : off + g < MAXFILE * BSIZE
  synced : Synced sb s'
  ref : 0 < (s'.ident ip).ref
  valid : (s'.node ip).valid = true
  size : (s'.node ip).d.size = max (s.node ip).d.size (off + tot)
  entries : ∀ k, k < NPLACE → entry s.disk (s.node ip).d k ≠ 0 →
    entry s'.disk (s'.node ip).d k = entry s.disk (s.node ip).d k
  content : ∀ x, x < MAXFILE * BSIZE → content s'.disk (s'.node ip).d x =
    if off ≤ x ∧ x < off + g then mem (x - off) else content s.disk (s.node ip).d x

theorem gives_prefixMemory {k : Nat} {x : UInt8} (h : (Src.user a).Gives (prefixMemory a mem g) k x) :
    k < g ∧ x = mem k := by
  obtain ⟨tot, m, c, rfl, hf, hle, hlt, rfl⟩ := h
  rw [Nat.add_sub_cancel_left] at hf
  have hg : tot + m ≤ g := by
    by_contra hc
    exact nomatch (if_neg hc).symm.trans hf
  refine ⟨by omega, ?_⟩
  show mem (a + tot - a + (k - tot)) = _
  rw [Nat.add_sub_cancel_left, Nat.add_sub_of_le hle]

theorem faults_prefixMemory {stray : Nat} {data : Bytes}
    (h : (Src.user a).Faults (prefixMemory a mem g) tot m stray data) :
    g < tot + m ∧ stray = g - tot ∧ ∀ j, j < stray → data j = mem (tot + j) := by
  obtain ⟨a', c, k, ha, rfl, hf, rfl, hdata⟩ := h
  obtain rfl : a = a' := Src.user.inj ha
  rw [Nat.add_sub_cancel_left] at hf hdata
  by_cases hg : tot + m ≤ g
  · rw [if_pos hg] at hf
    exact nomatch hf
  · rw [if_neg hg] at hf
    obtain rfl := Option.some.inj hf
    exact ⟨by omega, by omega, hdata⟩

theorem Synced.traces_failed (h : Synced sb s) (hT : s.InTrans) (hr : 0 < (s.ident ip).ref)
    (hv : (s.node ip).valid = true) (hf : t.fault = false) :
    Traces (prefixMemory a mem g) p (writei sb ip (.user a) off n) (fun r s' t' => t'.fault = true →
      ∃ tot : Nat, r = tot ∧ Failed sb s t ip mem off g tot s' t') s t := by
  refine (Traces.of_does (h.does_writei hT hr hv (.user a) off n)
    (h.traces_writei hT hr hv hf (.user a) off n)).mono ?_
  rintro r s' t' ⟨hw, hfault⟩ hft
  obtain ⟨hmono, tot, rfl, hlt, hbroke⟩ := hfault hft
  unfold WriteDone at hw
  split at hw
  · next hrange =>
    obtain ⟨tot', disk, d, data, stray, he, rfl, hw⟩ := hw
    obtain rfl : tot = tot' := by exact_mod_cast he
    have hthere := hbroke.there
    rw [put_node] at hthere
    have hwhy := (hw.why.resolve_left fun hc => by omega).resolve_left fun hc => hthere hc.2.1
    obtain ⟨hg, hstray, hdata⟩ := faults_prefixMemory hwhy
    have hle : tot ≤ g := by
      by_contra hc
      exact absurd (gives_prefixMemory (hw.gives g (by omega))).1 (by omega)
    have hdm := Nat.div_add_mod (off + tot) BSIZE
    have hmod := mod_BSIZE_lt (off + tot)
    -- the block of the failed copy
    have hin {k : Nat} (h₁ : tot ≤ k) (h₂ : k ≤ g) : (off + k) / BSIZE = (off + tot) / BSIZE := by
      refine Nat.div_eq_of_lt_le ?_ ?_
      · rw [Nat.mul_comm]
        omega
      · rw [Nat.mul_comm, Nat.mul_add, Nat.mul_one]
        omega
    have hbn := hin hle (Nat.le_refl g)
    refine ⟨tot, rfl, hmono, ?_, hle, fun k hk => ⟨fun he => ?_, fun hk' => ?_⟩, hrange.1, ?_, hw.synced, hr,
      by rw [put_node], ?_, ?_, fun x hx => ?_⟩
    · obtain ⟨h₁, h₂, h₃, h₄⟩ := hbroke
      rw [← hbn] at h₁ h₂ h₃ h₄
      exact ⟨h₁, h₂, h₃, h₄⟩
    · by_contra hc
      have hstart := (hw.stop hlt).resolve_left (by omega)
      have hk' := Nat.div_mul_le_self (off + k) BSIZE
      rw [he, hbn, Nat.mul_comm] at hk'
      omega
    · rw [hin hk' (Nat.le_of_lt hk), hbn]
    · have := hw.most
      omega
    · exact congrArg Vnode.size (hw.vnode h hr hv)
    · rw [put_node]
      exact hw.entries
    · rw [put_node]
      refine (hw.content x hx).trans ?_
      rw [show off + tot + stray = off + g by omega]
      split
      · next hc =>
        by_cases hk : x - off < tot
        · exact (gives_prefixMemory (hw.gives _ hk)).2
        · have hj := hdata (x - off - tot) (by omega)
          rwa [show tot + (x - off - tot) = x - off by omega] at hj
      · rfl
  · next hrange => exact absurd hw.1 (by omega)

/-! ### The two sides of the promise -/

theorem Does.exists {x : FsM α} {Q : α → State → Prop} (hE : ∀ e, ¬E.stops e)
    (hc : ∀ a m, ∃ c, E.copyin a m c) (h : Does E p x Q s) : ∃ r s', Q r s' := by
  induction x generalizing s with
  | ret r => exact ⟨r, s, h⟩
  | op o k ih =>
    obtain ⟨ω, hω⟩ : ∃ ω, E.Admits ω o := by
      cases o
      case copyin a m =>
        obtain ⟨c, hc⟩ := hc a m
        exact ⟨{ (default : Oracle) with copyin := c }, hc⟩
      all_goals exact ⟨default, trivial⟩
    cases he : perform ω p s o with
    | error e => exact absurd (h.1 ω e hω he) (hE e)
    | ok x => exact ih x.1 (h.2 x.1 x.2 ⟨ω, hω, he⟩)

theorem Synced.readsAs_iff (h : Synced sb s) (hr : 0 < (s.ident ip).ref) (hv : (s.node ip).valid = true)
    {bytes : Bytes} : ReadsAs sb s ip (s.node ip).d.size bytes ↔
      ∀ x, x < (s.node ip).d.size → bytes x = content s.disk (s.node ip).d x := by
  have hself := h.readsAs hr hv
  constructor
  · intro hread x hx
    have hsize : (s.node ip).d.size ≤ MAXFILE * BSIZE := by
      rw [h.cache ip hr hv]
      exact h.wf.size _ (h.live ip hr hv).1
    have hmax : MAXFILE * BSIZE < 2 ^ 32 - 1 := by decide
    have hclip : clip (s.node ip).d.size x 1 = 1 := by
      unfold clip
      rw [if_neg (by omega)]
      omega
    -- one byte is read
    obtain ⟨r, -, ⟨-, h₁⟩, -, h₂⟩ := Does.exists (E := anyMemory) (fun _ => id) (fun _ _ => ⟨default, trivial⟩)
      (Obeys.and _ (hread anyMemory 0 .kernel x 1 (by omega) (by decide))
        (hself anyMemory 0 .kernel x 1 (by omega) (by decide)) fun _ _ _ _ hs => hs)
    rw [hclip] at h₁ h₂
    have he := (h₁.resolve_right fun hc => hc.2 rfl).symm.trans (h₂.resolve_right fun hc => hc.2 rfl)
    have hbyte := List.head_eq_of_cons_eq (Prod.mk.inj he).2
    exact hbyte.trans (if_pos hx)
  · intro heq E p dst off n hoff hn
    refine (hself E p dst off n hoff hn).mono ?_
    rintro r s' ⟨rfl, hr⟩
    refine ⟨rfl, hr.imp_left fun hr => hr.trans ?_⟩
    refine congrArg (Prod.mk _) (Bytes.slice_congr fun i hi => ?_)
    exact (if_pos (lt_of_clip hi)).trans (heq _ (lt_of_clip hi)).symm

/-- What has been written is what was reported, and what is not in the log is as on the disk. -/
def Honest (sb : Superblock) (plat : Disk) (mem : Bytes) (s : State) (ip : Slot) (off : Nat) (r : Int)
    (s' : State) (t' : Trace) : Prop :=
  ReadsAs sb s' ip (max (s.node ip).d.size (off + r.toNat))
    (fun x => if off ≤ x ∧ x < off + r.toNat then mem (x - off) else (s.vnode ip).bytes x) ∧
  ∀ b, b ∉ t'.log → ∀ y, y < BSIZE → s'.disk b y = plat b y

/-- The bytes before the bad one that are for the same block of the file are what was there, as far as
anybody can tell: in the file, or in a block that is not in the log. -/
def Harmless (s : State) (L : Finset Nat) (ip : Slot) (mem : Bytes) (off g : Nat) : Prop :=
  ∀ k, k < g → (off + k) / BSIZE = (off + g) / BSIZE →
    mapped s.disk (s.node ip).d ((off + g) / BSIZE) ≠ 0 →
    (off + k < (s.node ip).d.size ∨ mapped s.disk (s.node ip).d ((off + g) / BSIZE) ∉ L) →
    mem k = content s.disk (s.node ip).d (off + k)

theorem Failed.reads_iff (h : Failed sb s t ip mem off g tot s' t') :
    ReadsAs sb s' ip (max (s.node ip).d.size (off + tot))
      (fun x => if off ≤ x ∧ x < off + tot then mem (x - off) else (s.vnode ip).bytes x) ↔
    ∀ k, tot ≤ k → k < g → off + k < (s.node ip).d.size →
      mem k = Fs.content s.disk (s.node ip).d (off + k) := by
  have hmax : (s'.node ip).d.size ≤ MAXFILE * BSIZE := by
    rw [h.synced.cache ip h.ref h.valid]
    exact h.synced.wf.size _ (h.synced.live ip h.ref h.valid).1
  have hle := h.le
  have hstart := h.start
  rw [← h.size, h.synced.readsAs_iff h.ref h.valid]
  rw [h.size] at hmax ⊢
  have hold {x : Nat} (hx : x < (s.node ip).d.size) :
      (s.vnode ip).bytes x = Fs.content s.disk (s.node ip).d x := if_pos hx
  constructor
  · intro hread k hk hkg hlt
    have hx := hread (off + k) (by omega)
    rw [if_neg (by omega), hold hlt, h.content _ (by omega), if_pos (by omega),
      Nat.add_sub_cancel_left] at hx
    exact hx.symm
  · intro hall x hx
    rw [h.content x (by omega)]
    by_cases hin : off ≤ x ∧ x < off + tot
    · rw [if_pos hin, if_pos (by omega)]
    · rw [if_neg hin, hold (by omega)]
      split
      · next hc =>
        have hk := hall (x - off) (by omega) (by omega) (by omega)
        rw [Nat.add_sub_of_le hc.1] at hk
        exact hk.symm
      · rfl

theorem Failed.clean_iff {plat : Disk} (h : Failed sb s t ip mem off g tot s' t')
    (hplat : ∀ b, b ∉ t.log → ∀ y, y < BSIZE → s.disk b y = plat b y) :
    (∀ b, b ∉ t'.log → ∀ y, y < BSIZE → s'.disk b y = plat b y) ↔
    (mapped s.disk (s.node ip).d ((off + g) / BSIZE) ≠ 0 →
      mapped s.disk (s.node ip).d ((off + g) / BSIZE) ∉ t.log →
      ∀ k, tot ≤ k → k < g → mem k = Fs.content s.disk (s.node ip).d (off + k)) := by
  have hbn : (off + g) / BSIZE < MAXFILE :=
    Nat.div_lt_of_lt_mul (by rw [Nat.mul_comm]; exact h.room)
  -- a byte of the file that is in the block in question
  have hbyte {disk : Disk} {d : Dinode} {x : Nat} (hx : x / BSIZE = (off + g) / BSIZE)
      (h0 : mapped disk d ((off + g) / BSIZE) ≠ 0) : Fs.content disk d x =
        disk (mapped disk d ((off + g) / BSIZE)) (x % BSIZE) := by
    unfold Fs.content
    rw [hx, if_neg h0]
  have hsame (h0 : mapped s.disk (s.node ip).d ((off + g) / BSIZE) ≠ 0) :
      mapped s'.disk (s'.node ip).d ((off + g) / BSIZE) = mapped s.disk (s.node ip).d ((off + g) / BSIZE) :=
    h.entries _ (place_lt hbn) h0
  constructor
  · intro hclean h0 hnot k htot hk
    have hblock := (h.block k hk).mpr htot
    have hmod := mod_BSIZE_lt (off + k)
    have hlt := h.room
    calc mem k = Fs.content s'.disk (s'.node ip).d (off + k) := by
          rw [h.content _ (by omega), if_pos (by omega), Nat.add_sub_cancel_left]
      _ = s'.disk (mapped s.disk (s.node ip).d ((off + g) / BSIZE)) ((off + k) % BSIZE) := by
          rw [hbyte hblock h.broke.there, hsame h0]
      _ = s.disk (mapped s.disk (s.node ip).d ((off + g) / BSIZE)) ((off + k) % BSIZE) := by
          rw [hclean _ (fun hmem => hnot (h.broke.old h0 hmem)) _ hmod, hplat _ hnot _ hmod]
      _ = Fs.content s.disk (s.node ip).d (off + k) := (hbyte hblock h0).symm
  · intro hall b hb y hy
    have hold : b ∉ t.log := fun hc => hb (h.mono hc)
    by_cases hne : b ≠ mapped s'.disk (s'.node ip).d ((off + g) / BSIZE)
    · rw [h.broke.rest b hb hne]
      exact hplat b hold y hy
    · obtain rfl := not_not.mp hne
      have h0 : mapped s.disk (s.node ip).d ((off + g) / BSIZE) ≠ 0 := fun h0 => hb (h.broke.new h0)
      -- the byte of the file at this place of the block
      obtain ⟨x, hx, hxy⟩ : ∃ x, x / BSIZE = (off + g) / BSIZE ∧ x % BSIZE = y :=
        ⟨BSIZE * ((off + g) / BSIZE) + y, by rw [Nat.mul_add_div (by decide), Nat.div_eq_of_lt hy]; rfl,
          by rw [Nat.mul_add_mod, Nat.mod_eq_of_lt hy]⟩
      have hxmax : x < MAXFILE * BSIZE := by
        rw [← hx] at hbn
        exact (Nat.div_lt_iff_lt_mul (by decide)).mp hbn
      have hkeep : Fs.content s'.disk (s'.node ip).d x = Fs.content s.disk (s.node ip).d x := by
        rw [h.content x hxmax]
        split
        · next hc =>
          have hoff : off + (x - off) = x := by omega
          have hk := hall h0 (hsame h0 ▸ hold) (x - off)
            ((h.block _ (by omega)).mp (by rw [hoff, hx])) (by omega)
          rwa [hoff] at hk
        · rfl
      rw [← hxy, ← hbyte hx h.broke.there, hkeep, hbyte hx h0, hxy, hsame h0]
      exact hplat _ (hsame h0 ▸ hold) y hy

/-- **A write that stops at a bad address is honest** exactly if the bytes that it had copied for the block in
question were there before. -/
theorem failed_write_honest_iff {plat : Disk} {L : Finset Nat} (h : Synced sb s) (hT : s.InTrans)
    (hr : 0 < (s.ident ip).ref) (hv : (s.node ip).valid = true)
    (hplat : ∀ b, b ∉ L → ∀ y, y < BSIZE → s.disk b y = plat b y) :
    Traces (prefixMemory a mem g) p (writei sb ip (.user a) off n) (fun r s' t' => t'.fault = true →
      (Honest sb plat mem s ip off r s' t' ↔ Harmless s L ip mem off g)) s ⟨L, false⟩ := by
  refine (h.traces_failed hT hr hv rfl).mono fun r s' t' hend hf => ?_
  obtain ⟨tot, rfl, hfail⟩ := hend hf
  unfold Honest Harmless
  rw [Int.toNat_natCast, hfail.reads_iff, hfail.clean_iff hplat]
  constructor
  · rintro ⟨h₁, h₂⟩ k hk hblock h0 hc
    have htot := (hfail.block k hk).mp hblock
    rcases hc with hc | hc
    · exact h₁ k htot hk hc
    · exact h₂ h0 hc k htot hk
  · intro hall
    refine ⟨fun k htot hk hlt => ?_, fun h0 hnot k htot hk => ?_⟩
    · have hblock := (hfail.block k hk).mpr htot
      refine hall k hk hblock ?_ (.inl hlt)
      rw [← hblock]
      exact (h.readable hr hv hlt).2
    · exact hall k hk ((hfail.block k hk).mpr htot) h0 (.inr hnot)

end

/-- Ten bytes can be had of a block. -/
theorem failed_write_honest_iff_tiny :
    Traces (prefixMemory 0 (Bytes.fill 7) 10) 0 (writei tiny 0 (.user 0) 0 BSIZE)
      (fun r s' t' => t'.fault = true → (Honest tiny tinyDisk (Bytes.fill 7) tinyState 0 0 r s' t' ↔
        Harmless tinyState ∅ 0 (Bytes.fill 7) 0 10)) tinyState ⟨∅, false⟩ :=
  failed_write_honest_iff tiny_synced tinyState_inTrans (by decide) rfl fun _ _ _ _ => rfl

def tenBytes : Oracle := { (default : Oracle) with copyin := ⟨Bytes.fill 7, some 10⟩ }

/-- A write of a block over the first block of a file reports that nothing was written, and the first byte of
the file is another. -/
theorem failed_write_stays : ∃ s',
    alone tenBytes 0 (writei tiny 0 (.user 0) 0 BSIZE) tinyState = .ok (0, s') ∧
    (alone tenBytes 0 (readi tiny 0 .kernel 0 1) tinyState).map Prod.fst = .ok (1, [0]) ∧
    (alone tenBytes 0 (readi tiny 0 .kernel 0 1) s').map Prod.fst = .ok (1, [7]) := by
  have h : (alone tenBytes 0 (writei tiny 0 (.user 0) 0 BSIZE) tinyState).map (fun x =>
      (x.1, (alone tenBytes 0 (readi tiny 0 .kernel 0 1) x.2).map Prod.fst)) =
      .ok (0, .ok (1, [7])) := by decide +kernel
  have h' : (alone tenBytes 0 (readi tiny 0 .kernel 0 1) tinyState).map Prod.fst = .ok (1, [0]) := by
    decide +kernel
  obtain ⟨r, s', hs, he⟩ := Prog.ok_of_map h
  obtain ⟨rfl, h₂⟩ := Prod.mk.inj he
  exact ⟨s', hs, h', h₂⟩

end ZeptOS.Fs
