import ZeptOS.Fs.Synced

/-!
# The functions on inodes

What `writei`, `itrunc`, `ialloc` and `iput` do to the volume, when a process runs alone. Each is
called with the copies of inodes in agreement with the disk, and leaves them so.

References are counted against a `base`, what everybody but the present function has: a function that
takes a reference is entered with it on top of the base, whatever that is, and one that returns a
reference leaves it there. An entry that is referenced in the base stays what it is (`Moves`).
-/

namespace ZeptOS.Fs

open Lib Lib.Code Function

variable {off tot inum type stray : Nat} {E : Env} {sb : Superblock} {s s' : State} {ip : Slot}
  {disk' : Disk} {n : Dinode} {p : Proc}

/-! ## Writing -/

def Vnode.write (v : Vnode) (off tot : Nat) (data : Bytes) : Vnode :=
  { v with
    size := max v.size (off + tot)
    bytes := fun x => if off ≤ x ∧ x < off + tot then data (x - off) else v.bytes x }

/-- A file with `n` bytes from `lo` on that nobody knows of, as far as the file goes. -/
def Vnode.smear (v : Vnode) (lo n : Nat) (data : Bytes) : Vnode :=
  { v with bytes := fun x => if lo ≤ x ∧ x < lo + n ∧ x < v.size then data (x - lo) else v.bytes x }

/-- What `writei` leaves, when it says that it has written `tot` bytes: `stray` more are in the buffer
if the copying failed. -/
structure Wrote (E : Env) (sb : Superblock) (s : State) (ip : Slot) (src : Src) (off n tot : Nat)
    (disk : Disk) (d : Dinode) (data : Bytes) (stray : Nat) : Prop where
  most : tot + stray ≤ n
  synced : Synced sb (s.put disk ip d)
  volume : volume sb disk = Function.update (volume sb s.disk) (s.inum ip)
    (some (((vnode s.disk (inode sb s.disk (s.inum ip))).write off tot data).smear (off + tot) stray
      fun j => data (tot + j)))
  others : ∀ j, j ≠ s.inum ip → j < sb.ninodes → inode sb disk j = inode sb s.disk j ∧
    (Live sb (inode sb s.disk) j → Untouched s.disk disk (inode sb s.disk j))
  gives : ∀ k, k < tot → src.Gives E k (data k)
  why : (tot = n ∧ stray = 0) ∨ (stray = 0 ∧ mapped disk d ((off + tot) / BSIZE) = 0 ∧
      ∀ x, x < sb.size → used sb disk x = true) ∨
    src.Faults E tot (min (n - tot) (BSIZE - (off + tot) % BSIZE)) stray fun j => data (tot + j)
  entries : ∀ k, k < NPLACE → entry s.disk (s.node ip).d k ≠ 0 →
    entry disk d k = entry s.disk (s.node ip).d k
  content : ∀ x, x < MAXFILE * BSIZE → content disk d x =
    if off ≤ x ∧ x < off + tot + stray then data (x - off) else content s.disk (s.node ip).d x
  /-- it stops at the end of a block -/
  stop : tot < n → tot = 0 ∨ (off + tot) % BSIZE = 0

variable {disk : Disk} {d : Dinode}

variable {data : Bytes}

theorem Wrote.why_kernel {bs : Bytes} {n : Nat}
    (h : Wrote E sb s ip (.kernel bs) off n tot disk d data stray) :
    (tot = n ∧ stray = 0) ∨ (stray = 0 ∧ ∀ x, x < sb.size → used sb disk x = true) := by
  refine h.why.imp_right fun hw => ?_
  rcases hw with ⟨h0, -, hfull⟩ | ⟨a, c, k, hsrc, -⟩
  · exact ⟨h0, hfull⟩
  · exact nomatch hsrc

theorem Wrote.mapped_of_full {src : Src} {n bn : Nat}
    (hw : Wrote E sb s ip src off n tot disk d data stray) (h : Synced sb s)
    (hr : 0 < (s.ident ip).ref) (hv : (s.node ip).valid = true)
    (hfull : ∀ x, x < sb.size → used sb s.disk x = true) (hbn : bn < MAXFILE)
    (h0 : mapped disk d bn ≠ 0) : mapped s.disk (s.node ip).d bn ≠ 0 := by
  have hvalid : ((s.put disk ip d).node ip).valid = true := by rw [put_node]
  have hd : d = inode sb disk (s.inum ip) := by
    have hc := hw.synced.cache ip hr hvalid
    rwa [put_node] at hc
  have hl : Live sb (inode sb disk) (s.inum ip) := hw.synced.live ip hr hvalid
  have howned := hw.synced.wf.owned
  have hx : Live sb (inode sb disk) (s.inum ip) ∧ place bn < NPLACE := ⟨hl, place_lt hbn⟩
  have ha0 : entry disk (inode sb disk (s.inum ip)) (place bn) ≠ 0 := by rwa [← hd]
  have harea := howned.area (s.inum ip, place bn) hx ha0
  -- the block was in use, and it still is where it was
  rcases (h.wf.owned.bits _ harea.2).mp (hfull _ harea.2) with hlt | ⟨⟨j, l⟩, ⟨hj, hlt⟩, he⟩
  · exact absurd harea.1 (Nat.not_le_of_lt hlt)
  · dsimp only at hj hlt he
    by_cases hji : j = s.inum ip
    · subst hji
      have hkeep := hw.entries l hlt (by rwa [h.cache ip hr hv, he])
      rw [h.cache ip hr hv, he, hd] at hkeep
      have hone := howned.once (_, place bn) (_, l) hx ⟨hl, hlt⟩ hkeep.symm ha0
      rwa [mapped, (Prod.mk.inj hone).2, h.cache ip hr hv, he]
    · obtain ⟨hsame, hun⟩ := hw.others j hji hj.1
      have hkeep : entry disk (inode sb disk j) l = entry disk (inode sb disk (s.inum ip)) (place bn) := by
        rw [hsame, (hun hj).entry, he]
        rfl
      have hlj : Live sb (inode sb disk) j := ⟨hj.1, by rw [hsame]; exact hj.2⟩
      have hone := howned.once (_, place bn) (j, l) hx ⟨hlj, hlt⟩ hkeep.symm ha0
      exact absurd (Prod.mk.inj hone).1.symm hji

def WriteDone (E : Env) (sb : Superblock) (s : State) (ip : Slot) (src : Src) (off n : Nat) (r : Int)
    (s' : State) : Prop :=
  if off ≤ (s.node ip).d.size ∧ off + n ≤ MAXFILE * BSIZE then
    ∃ (tot : Nat) (disk : Disk) (d : Dinode) (data : Bytes) (stray : Nat),
      r = tot ∧ s' = s.put disk ip d ∧ Wrote E sb s ip src off n tot disk d data stray
  else r = -1 ∧ s' = s

variable {ino : Nat → Dinode}

variable {i : Nat}

theorem vnode_of_writes (h : Writes sb ino i disk data off (off + tot + stray) d disk')
    (hoff : off ≤ (ino i).size) (hsize : (ino i).size ≤ MAXFILE * BSIZE)
    (hend : off + tot ≤ MAXFILE * BSIZE) : vnode disk' { d with size := max d.size (off + tot) } =
      ((vnode disk (ino i)).write off tot fun k => data (off + k)).smear (off + tot) stray
        fun j => data (off + (tot + j)) := by
  have hs : d.size = (ino i).size := by rw [h.same]
  have ht : d.type = (ino i).type := by rw [h.same]
  have hM : d.major = (ino i).major := by rw [h.same]
  have hm : d.minor = (ino i).minor := by rw [h.same]
  have hl : d.nlink = (ino i).nlink := by rw [h.same]
  unfold vnode Vnode.smear Vnode.write
  dsimp only
  rw [hs, ht, hM, hm, hl]
  congr 1
  funext x
  by_cases hx : x < max (ino i).size (off + tot)
  · rw [if_pos hx]
    refine ((content_addrs (d := d) rfl x).trans (h.content x (by omega))).trans ?_
    by_cases hst : off + tot ≤ x ∧ x < off + tot + stray
    · rw [if_pos (by omega), if_pos ⟨hst.1, hst.2, hx⟩,
        show off + (tot + (x - (off + tot))) = x by omega]
    · have hno : ¬ (off + tot ≤ x ∧ x < off + tot + stray ∧ x < max (ino i).size (off + tot)) :=
        fun hc => hst ⟨hc.1, hc.2.1⟩
      by_cases hr : off ≤ x ∧ x < off + tot
      · rw [if_pos (by omega), if_neg hno, if_pos hr, show off + (x - off) = x by omega]
      · rw [if_neg (by omega), if_neg hno, if_neg hr, if_pos (by omega)]
  · rw [if_neg hx, if_neg (fun hc => hx hc.2.2), if_neg (by omega), if_neg (by omega)]

theorem Writes.resize {hi : Nat} (h : Writes sb ino i disk data off hi d disk') (hl : Live sb ino i)
    (hoff : off ≤ (ino i).size) (hhi : off + tot ≤ hi) (hend : off + tot ≤ MAXFILE * BSIZE) :
    WellFormed sb (update ino i { d with size := max d.size (off + tot) }) disk' := by
  have hself : update ino i d i = d := update_self ..
  have hs : d.size = (ino i).size := by rw [h.same]
  have ht : d.type = (ino i).type := by rw [h.same]
  have hl' : Live sb (update ino i d) i := ⟨hl.1, by rw [hself, ht]; exact hl.2⟩
  have hsize := h.wf.size i hl.1
  rw [hself] at hsize
  have hwf := h.wf.setAttr (i := i) (n := { d with size := max d.size (off + tot) })
    (by rw [hself]) (by rw [hself]) (Nat.max_le.mpr ⟨hsize, hend⟩) fun bn hbn => ?_
  · rwa [update_idem] at hwf
  · rw [hself]
    by_cases hb : bn * BSIZE < d.size
    · have hfull := h.wf.full i bn hl'
      rw [hself] at hfull
      exact hfull hb
    · have hbn' : bn * BSIZE < max d.size (off + tot) := hbn
      have hthere := h.there (bn * BSIZE) (by omega) (by omega)
      rwa [Nat.mul_div_cancel _ (by decide)] at hthere

/-- **`writei`** to a locked inode. -/
theorem Synced.does_writei (h : Synced sb s) (hT : s.InTrans) (hr : 0 < (s.ident ip).ref)
    (hv : (s.node ip).valid = true) (src : Src) (off n : Nat) :
    Does E p (writei sb ip src off n) (WriteDone E sb s ip src off n) s := by
  have hed := h.editing hr hv
  have hd := h.cache ip hr hv
  have hlive := h.live ip hr hv
  have hsz := h.wf.size _ hlive.1
  rw [← hd] at hsz
  unfold writei
  refine does_bind.2 (does_enter (does_bind.2 (does_node ?_)))
  dsimp only
  by_cases hc : off > (s.node ip).d.size ∨ (off + n) % 2 ^ 32 < off
  · rw [if_pos hc]
    refine (if_neg ?_).mpr ⟨rfl, rfl⟩
    rintro ⟨h₁, h₂⟩
    have : off + n < 2 ^ 32 := h₂.trans_lt (by decide)
    rw [Nat.mod_eq_of_lt this] at hc
    omega
  · rw [if_neg hc]
    by_cases hmax : off + n > MAXFILE * BSIZE
    · rw [if_pos hmax]
      exact (if_neg (by omega)).mpr ⟨rfl, rfl⟩
    · rw [if_neg hmax]
      refine (hed.does_writeiFrom hT (Nat.zero_le n) (by omega) (by omega)).call ?_
      rintro ⟨tot, off'⟩ s' ⟨disk, d, data, stray, rfl, hw⟩
      obtain ⟨hwr, hle, hmost, hat, hgives, hwhy, hstop⟩ := hw
      dsimp only at hwr hle hmost hat hgives hwhy hstop ⊢
      rw [Nat.sub_zero] at hat
      subst hat
      have hoff : off ≤ (inode sb s.disk (s.inum ip)).size := by
        rw [← hd]
        omega
      have hend : off + tot ≤ MAXFILE * BSIZE := by omega
      have hwf := hwr.resize hlive hoff (Nat.le_add_right _ _) hend
      have hfits : ({ d with size := max d.size (off + tot) } : Dinode).Fits := by
        refine ⟨hwr.fits.type, hwr.fits.major, hwr.fits.minor, hwr.fits.nlink, ?_, hwr.fits.addrs,
          hwr.fits.zero⟩
        exact Nat.max_lt.mpr ⟨hwr.fits.size, hend.trans_lt (by decide)⟩
      have htype : d.type ≠ 0 := by
        rw [hwr.same]
        exact hlive.2
      obtain ⟨hsync, hvol⟩ := h.commit hr hlive.1 hwf hwr.kept hfits htype
      rw [vnode_of_writes hwr hoff (h.wf.size _ hlive.1) hend] at hvol
      refine does_bind.2 (does_node ?_)
      rw [put_node]
      have hdone : Does E p (iupdate sb ip >>= fun _ => pure (tot : Int))
          (WriteDone E sb s ip src off n)
          (s.put disk ip { d with size := max d.size (off + tot) }) := by
        refine does_bind.2 (does_iupdate hT h.bufs ?_)
        rw [put_node]
        have hun := untouched_put_self h.geometry hlive.1 hwf htype
        refine (if_pos (by omega)).mpr ⟨tot, _, _, fun k => data (off + k), stray, rfl, rfl, hmost,
          hsync, hvol, fun j hj hjn => ⟨?_, fun hl => ?_⟩, fun k hk => ?_, ?_, fun k hk h0 => ?_,
          fun x hx => ?_, hstop⟩
        · exact (inode_put h.geometry hwr.kept hfits hjn).trans (update_of_ne hj _ _)
        · exact hwr.kept.untouched_put h.geometry hlive.1 h.wf hj hl
        · have hk' := hgives (off + k) (by omega) (by omega)
          rwa [show 0 + (off + k - off) = k by omega] at hk'
        · refine hwhy.imp_right (Or.imp (fun hfull => ⟨hfull.1, ?_, fun x hx => ?_⟩) fun hf => ?_)
          · exact (hun.entry _).trans ((entry_addrs rfl _).trans hfull.2.1)
          · exact (used_congr h.geometry hx fun _ hb _ => putInode_apply h.geometry hlive.1 hb).trans
              (hfull.2.2 x hx)
          · simpa only [Nat.add_assoc] using hf
        · rw [hd] at h0 ⊢
          exact (hun.entry k).trans ((entry_addrs rfl k).trans (hwr.entries k hk h0))
        · refine (hun.content hx).trans ((content_addrs rfl x).trans ((hwr.content x hx).trans ?_))
          rw [hd]
          split
          · next hc => rw [show off + (x - off) = x by omega]
          · rfl
      refine does_bind.2 (does_when (fun hgt => ?_) fun hgt => ?_)
      · refine does_modifyNode_put ?_
        rwa [Nat.max_eq_right (Nat.le_of_lt hgt)] at hdone
      · rwa [Nat.max_eq_left (Nat.le_of_not_lt hgt)] at hdone

/-! ## Attributes and truncation -/

def Vnode.truncate (v : Vnode) : Vnode := { v with size := 0, bytes := Bytes.fill 0 }

section

variable {b : Slot → Nat}

theorem does_update {α : Type} {g : Dinode → Dinode} {k : FsM α} {Q : α → State → Prop}
    (hT : s.InTrans) (hbufs : ∀ b, s.buf b = none) (hnode : s.node ip = ⟨true, d⟩)
    (hk : Does E p k Q (s.put (putInode sb s.disk (s.inum ip) (g d)) ip (g d))) :
    Does E p (modifyNode ip g >>= fun _ => iupdate sb ip >>= fun _ => k) Q s := by
  have hs : s = s.put s.disk ip d := (put_self hnode).symm
  refine does_bind.2 ?_
  rw [hs]
  refine does_modifyNode_put (does_bind.2 (does_iupdate hT hbufs ?_))
  rw [put_node]
  exact hk

variable {Q : Unit → State → Prop}

/-- **`itrunc`** of a locked inode. -/
theorem Synced.does_itrunc (h : Synced sb s) (hT : s.InTrans) (hr : 0 < (s.ident ip).ref)
    (hv : (s.node ip).valid = true)
    (hq : ∀ disk, Synced sb (s.put disk ip (emptied (s.node ip).d)) →
      volume sb disk = update (volume sb s.disk) (s.inum ip)
        (some (vnode s.disk (s.node ip).d).truncate) →
      Q () (s.put disk ip (emptied (s.node ip).d))) : Does E p (itrunc sb ip) Q s := by
  have hl := h.live ip hr hv
  have hd := h.cache ip hr hv
  refine (h.editing hr hv).does_itrunc hT fun disk hwf hk => ?_
  have hf : (emptied (inode sb s.disk (s.inum ip))).Fits := by
    have hf := inode_fits sb s.disk (s.inum ip)
    exact ⟨hf.type, hf.major, hf.minor, hf.nlink, Nat.two_pow_pos _, fun _ => Nat.two_pow_pos _,
      fun _ _ => rfl⟩
  obtain ⟨hsync, hvol⟩ := h.commit hr hl.1 hwf hk hf hl.2
  rw [hd] at hq
  exact hq _ hsync hvol

/-! ## References -/

def bump (b : Slot → Nat) (ip : Slot) : Slot → Nat := Function.update b ip (b ip + 1)

theorem bump_self (b : Slot → Nat) (ip : Slot) : bump b ip ip = b ip + 1 := update_self ..

theorem bump_of_ne {jp : Slot} (h : jp ≠ ip) : bump b ip jp = b jp := update_of_ne h _ _

theorem bump_pos (b : Slot → Nat) (ip : Slot) : 0 < bump b ip ip := by
  rw [bump_self]
  exact Nat.succ_pos _

theorem bump_comm (b : Slot → Nat) (ip jp : Slot) : bump (bump b ip) jp = bump (bump b jp) ip := by
  funext x
  by_cases hi : x = ip <;> by_cases hj : x = jp <;> by_cases hij : ip = jp <;>
    simp_all [bump, update_apply]

theorem le_bump (b : Slot → Nat) (ip jp : Slot) : b jp ≤ bump b ip jp := by
  by_cases h : jp = ip
  · rw [h, bump_self]
    exact Nat.le_succ _
  · rw [bump_of_ne h]

def Refs (b : Slot → Nat) (s : State) : Prop := ∀ ip, (s.ident ip).ref = b ip

/-- **What stays when references come and go**: entries that are referenced in the base, and the rest
of the state. -/
structure Moves (b : Slot → Nat) (s s' : State) : Prop where
  begun : s'.begun = s.begun
  file : s'.file = s.file
  pipe : s'.pipe = s.pipe
  pstate : s'.pstate = s.pstate
  ofile : s'.ofile = s.ofile
  cwd : s'.cwd = s.cwd
  inum : ∀ ip, 0 < b ip → s'.inum ip = s.inum ip
  valid : ∀ ip, 0 < b ip → (s.node ip).valid = true → (s'.node ip).valid = true

theorem Moves.refl (b : Slot → Nat) (s : State) : Moves b s s :=
  ⟨rfl, rfl, rfl, rfl, rfl, rfl, fun _ _ => rfl, fun _ _ hv => hv⟩

theorem Moves.trans {s'' : State} (h : Moves b s s') (h' : Moves b s' s'') : Moves b s s'' where
  begun := h'.begun.trans h.begun
  file := h'.file.trans h.file
  pipe := h'.pipe.trans h.pipe
  pstate := h'.pstate.trans h.pstate
  ofile := h'.ofile.trans h.ofile
  cwd := h'.cwd.trans h.cwd
  inum ip hb := (h'.inum ip hb).trans (h.inum ip hb)
  valid ip hb hv := h'.valid ip hb (h.valid ip hb hv)

theorem Moves.put (b : Slot → Nat) (s : State) (disk : Disk) (ip : Slot) (n : Dinode) :
    Moves b s (s.put disk ip n) := by
  refine ⟨rfl, rfl, rfl, rfl, rfl, rfl, fun _ _ => rfl, fun jp _ hv => ?_⟩
  by_cases hj : jp = ip
  · subst hj
    rw [put_node]
  · simpa [State.put, hj] using hv

theorem Moves.inTrans (h : Moves b s s') (hT : s.InTrans) : s'.InTrans := by
  unfold State.InTrans
  rwa [h.begun]

theorem cached_some {dev : Nat} (h : s.cached dev inum = some ip) :
    0 < (s.ident ip).ref ∧ (s.ident ip).dev = dev ∧ s.inum ip = inum := by
  simpa using List.find?_some h

theorem empty_some (h : s.empty = some ip) : (s.ident ip).ref = 0 := by
  simpa using List.find?_some h

/-- **`iget`** finds the entry of the inode, or takes one. -/
theorem Synced.does_iget (h : Synced sb s) (href : Refs b s)
    (hE : s.empty = none → E.stops (.panic .igetNoInodes)) {Q : Slot → State → Prop}
    (hq : ∀ ip s', Synced sb s' → Refs (bump b ip) s' → Moves b s s' → s'.lock = s.lock →
      s'.disk = s.disk → s'.inum ip = inum → (b ip = 0 → (s'.node ip).valid = false) → Q ip s') :
    Does E p (iget ROOTDEV inum) Q s := by
  refine does_op fun ω _ => ?_
  simp only [perform]
  cases hc : s.cached ROOTDEV inum with
  | some ip =>
    obtain ⟨hpos, -, hi⟩ := cached_some hc
    refine hq ip (s.addRef ip 1) (h.addRef fun _ => hpos) (fun jp => ?_) ?_ rfl rfl ?_ fun hb => ?_
    · by_cases hj : jp = ip
      · subst hj
        simp [State.addRef, State.setIdent, href jp, bump_self]
      · simp [State.addRef, State.setIdent, hj, href jp, bump_of_ne hj]
    · refine ⟨rfl, rfl, rfl, rfl, rfl, rfl, fun jp _ => ?_, fun _ _ hv => hv⟩
      by_cases hj : jp = ip
      · subst hj
        simp [State.addRef, State.setIdent, State.inum]
      · simp [State.addRef, State.setIdent, State.inum, hj]
    · simpa [State.addRef, State.setIdent, State.inum] using hi
    · have := href ip
      omega
  | none =>
    cases he : s.empty with
    | none => exact hE he
    | some ip =>
      have h0 := empty_some he
      have hb0 : b ip = 0 := by
        have := href ip
        omega
      have hne {jp : Slot} (hb : 0 < b jp) : jp ≠ ip := by
        rintro rfl
        omega
      refine hq ip (s.recycle ip ROOTDEV inum) (h.recycle hc) (fun jp => ?_) ?_ rfl rfl ?_ fun _ => ?_
      · by_cases hj : jp = ip
        · subst hj
          simp [State.recycle, State.setIdent, State.setNode, bump_self, hb0]
        · simp [State.recycle, State.setIdent, State.setNode, hj, href jp, bump_of_ne hj]
      · refine ⟨rfl, rfl, rfl, rfl, rfl, rfl, fun jp hb => ?_, fun jp hb hv => ?_⟩
        · simp [State.recycle, State.setIdent, State.setNode, State.inum, hne hb]
        · simpa [State.recycle, State.setIdent, State.setNode, hne hb] using hv
      · simp [State.recycle, State.setIdent, State.setNode, State.inum]
      · simp [State.recycle, State.setIdent, State.setNode]

theorem Synced.does_ilockRead (h : Synced sb s) (hr : 0 < (s.ident ip).ref)
    (hl : Live sb (inode sb s.disk) (s.inum ip)) (hq : ∀ s', s' = { s with
        lock := update s.lock ip (some p)
        node := update s.node ip ⟨true, inode sb s.disk (s.inum ip)⟩ } →
      Synced sb s' → (∀ b, Moves b s s') → Q () s') :
    Does E p (ilockRead sb ip) Q (s.setLock ip (some p)) := by
  have hgoal : Q () { s with
      lock := update s.lock ip (some p)
      node := update s.node ip ⟨true, inode sb s.disk (s.inum ip)⟩ } := by
    refine hq _ rfl ⟨h.geometry, h.bufs, h.wf, h.unique, h.dev, fun jp hj hv => ?_,
      fun jp hj hv => ?_⟩ fun b => ⟨rfl, rfl, rfl, rfl, rfl, rfl, fun _ _ => rfl, fun jp _ hv => ?_⟩
    · by_cases hji : jp = ip
      · subst hji
        exact hl
      · exact h.live jp hj (by simpa [hji] using hv)
    · by_cases hji : jp = ip
      · subst hji
        simp
      · simpa [hji] using h.cache jp hj (by simpa [hji] using hv)
    · by_cases hji : jp = ip
      · subst hji
        simp
      · simpa [hji] using hv
  unfold ilockRead
  refine does_bind.2 (does_node ?_)
  by_cases hv : (s.node ip).valid = true
  · rw [if_pos (show ((s.setLock ip (some p)).node ip).valid = true from hv)]
    have hnode : s.node = update s.node ip ⟨true, inode sb s.disk (s.inum ip)⟩ := by
      rw [← h.cache ip hr hv, ← hv, update_eq_self]
    rw [← hnode] at hgoal
    exact hgoal
  · rw [if_neg (show ¬((s.setLock ip (some p)).node ip).valid = true from hv)]
    refine does_bind.2 (does_ident ?_)
    refine does_bind.2 (does_bread (h.bufs _) ?_)
    dsimp only
    refine does_bind.2 (does_setNode ?_)
    refine does_bind.2 (does_brelse (update_self ..) ?_)
    refine does_bind.2 (does_setNode ?_)
    have hload : Dinode.load ((s.setLock ip (some p)).disk
        (sb.iblock ((s.setLock ip (some p)).ident ip).inum))
        (((s.setLock ip (some p)).ident ip).inum % IPB) = inode sb s.disk (s.inum ip) := rfl
    rw [hload, if_neg hl.2]
    have hbuf := buf_back (p := p) (h.bufs (sb.iblock (s.inum ip)))
    refine does_pure.2 ?_
    simpa only [State.setLock, State.setBuf, State.setNode, update_idem, hbuf] using hgoal

/-- **`ilock`** of an inode that is allocated. -/
theorem Synced.does_ilock (h : Synced sb s) (hr : 0 < (s.ident ip).ref) (hlock : s.lock ip = none)
    (hl : Live sb (inode sb s.disk) (s.inum ip)) (hq : ∀ s', s' = { s with
        lock := update s.lock ip (some p)
        node := update s.node ip ⟨true, inode sb s.disk (s.inum ip)⟩ } →
      Synced sb s' → (∀ b, Moves b s s') → Q () s') : Does E p (ilock sb ip) Q s := by
  unfold ilock
  refine does_bind.2 (does_ident ?_)
  rw [if_neg (by omega)]
  exact does_bind.2 (does_acquiresleep hlock (h.does_ilockRead hr hl hq))

theorem does_iunlock (hr : 0 < (s.ident ip).ref) (hlock : s.lock ip = some p)
    (hq : Q () (s.setLock ip none)) : Does E p (iunlock ip) Q s := by
  unfold iunlock
  refine does_bind.2 (does_holdingsleep ?_)
  rw [hlock, if_neg (by simp)]
  refine does_bind.2 (does_ident ?_)
  rw [if_neg (by omega)]
  exact does_releasesleep hq

theorem WellFormed.retire (h : WellFormed sb ino disk) (h0 : ∀ k, entry disk (ino i) k = 0)
    (ht : n.type = 0) (hs : n.size ≤ MAXFILE * BSIZE) : WellFormed sb (update ino i n) disk := by
  have hne {j : Nat} (hl : Live sb (update ino i n) j) : j ≠ i := by
    rintro rfl
    exact hl.2 (by rw [update_self, ht])
  have hlive {j : Nat} (hj : j ≠ i) : Live sb (update ino i n) j ↔ Live sb ino j := by
    unfold Live
    rw [update_of_ne hj]
  refine ⟨h.owned.drop (S := fun x => x.1 = i) (fun x hx => ?_) (fun x hx hS => ?_) fun b _ => ?_,
    fun j hj => ?_, fun j bn hj hbn => ?_⟩
  · have hx' := hne hx.1
    exact ⟨⟨(hlive hx').mp hx.1, hx.2⟩, fun he => absurd he hx',
      fun _ => by rw [update_of_ne hx']⟩
  · exact ⟨(hlive hS).mpr hx.1, hx.2⟩
  · refine ⟨fun hu => ⟨hu, ?_⟩, fun hu => hu.1⟩
    rintro ⟨x, -, rfl, hne', -⟩
    exact hne' (h0 _)
  · by_cases hji : j = i
    · rwa [hji, update_self]
    · rw [update_of_ne hji]
      exact h.size j hj
  · have hj' := hne hj
    rw [update_of_ne hj'] at hbn ⊢
    exact h.full j bn ((hlive hj').mp hj) hbn

/-- **An inode without blocks is freed**, and its entry is no longer valid. -/
theorem Synced.free (h : Synced sb s) (hr : 0 < (s.ident ip).ref)
    (hnode : s.node ip = ⟨true, d⟩) (ha : ∀ k, d.addrs k = 0) : Synced sb { s with
      disk := putInode sb s.disk (s.inum ip) { d with type := 0 }
      node := update s.node ip ⟨false, { d with type := 0 }⟩ } ∧
    volume sb (putInode sb s.disk (s.inum ip) { d with type := 0 }) =
      update (volume sb s.disk) (s.inum ip) none := by
  have hv : (s.node ip).valid = true := by rw [hnode]
  have hl := h.live ip hr hv
  have hd : d = inode sb s.disk (s.inum ip) := by rw [← h.cache ip hr hv, hnode]
  have hf := inode_fits sb s.disk (s.inum ip)
  have hs := h.wf.size _ hl.1
  rw [← hd] at hf hs
  have h0 (k : Nat) : entry s.disk (inode sb s.disk (s.inum ip)) k = 0 := by
    rw [← hd]
    unfold entry
    rw [ha, ha, if_pos rfl, ite_self]
  have hwf := h.wf.retire (n := { d with type := 0 }) h0 rfl hs
  have hfits : ({ d with type := 0 } : Dinode).Fits :=
    ⟨Nat.two_pow_pos _, hf.major, hf.minor, hf.nlink, hf.size, hf.addrs, hf.zero⟩
  have hw := h.write hr hl.1 hwf .refl hfits (m := ⟨false, { d with type := 0 }⟩) nofun
  rwa [if_pos rfl] at hw

def retired (d : Dinode) : Dinode := { emptied d with type := 0 }

def Frees (b : Slot → Nat) (s : State) (ip : Slot) : Prop :=
  b ip = 0 ∧ (s.node ip).valid = true ∧ (s.node ip).d.nlink = 0

instance (b : Slot → Nat) (s : State) (ip : Slot) : Decidable (Frees b s ip) :=
  inferInstanceAs (Decidable (_ ∧ _))

theorem refs_drop (href : Refs (bump b ip) s) : Refs b (s.addRef ip (-1)) := by
  intro jp
  have hj' := href jp
  by_cases hj : jp = ip
  · subst hj
    rw [bump_self] at hj'
    simp [State.addRef, State.setIdent, hj']
  · rw [bump_of_ne hj] at hj'
    simp [State.addRef, State.setIdent, hj, hj']

theorem moves_addRef (b : Slot → Nat) (s : State) (ip : Slot) (c : Int) :
    Moves b s (s.addRef ip c) := by
  refine ⟨rfl, rfl, rfl, rfl, rfl, rfl, fun jp _ => ?_, fun _ _ hv => hv⟩
  by_cases hj : jp = ip
  · subst hj
    simp [State.addRef, State.setIdent, State.inum]
  · simp [State.addRef, State.setIdent, State.inum, hj]

/-- **`iput`.** -/
theorem Synced.does_iput (h : Synced sb s) (hT : s.InTrans) (href : Refs (bump b ip) s)
    (hlock : Frees b s ip → s.lock ip = none ∨ E.stops .wait)
    (hq : ∀ s', Synced sb s' → Refs b s' → Moves b s s' → s'.lock = s.lock → (if Frees b s ip then
        volume sb s'.disk = update (volume sb s.disk) (s.inum ip) none
       else s'.disk = s.disk) → Q () s') : Does E p (iput sb ip) Q s := by
  have hr : 0 < (s.ident ip).ref := by
    rw [href ip, bump_self]
    omega
  have htest : ((s.ident ip).ref = 1 ∧ (s.node ip).valid = true ∧ (s.node ip).d.nlink = 0) ↔
      Frees b s ip := by
    unfold Frees
    rw [href ip, bump_self]
    exact and_congr_left fun _ => by omega
  have hdrop {s' : State} (hsync : Synced sb s') (hs' : Refs (bump b ip) s') :
      Synced sb (s'.addRef ip (-1)) ∧ Refs b (s'.addRef ip (-1)) :=
    ⟨hsync.addRef fun hc => by omega, refs_drop hs'⟩
  unfold iput
  refine does_bind.2 (does_op fun ω _ => ?_)
  simp only [perform]
  by_cases hf : Frees b s ip
  · rw [if_pos (htest.mpr hf)]
    by_cases hnone : s.lock ip ≠ none
    · rw [if_neg hnone]
      exact (hlock hf).resolve_left hnone
    have hlock : s.lock ip = none := not_not.mp hnone
    rw [if_pos hlock]
    obtain ⟨hb0, hv, -⟩ := id hf
    have hl := h.live ip hr hv
    show Does E p (itrunc sb ip >>= _) Q (s.setLock ip (some p))
    have h₁ : Synced sb (s.setLock ip (some p)) := h.lock _
    refine does_bind.2 (h₁.does_itrunc hT hr hv fun disk hsync hvol => ?_)
    refine does_update hT h.bufs (put_node _ _ _ _) ?_
    refine does_bind.2 (does_node ?_)
    rw [put_node]
    refine does_bind.2 (does_setNode ?_)
    refine does_bind.2 (does_releasesleep ?_)
    refine does_iputDrop ?_
    obtain ⟨hs, hvol'⟩ := hsync.free hr (put_node _ _ _ _) fun _ => rfl
    have hst : ((((s.setLock ip (some p)).put disk ip (emptied (s.node ip).d)).put
        (putInode sb disk (s.inum ip) (retired (s.node ip).d)) ip (retired (s.node ip).d)).setNode ip
        ⟨false, retired (s.node ip).d⟩).setLock ip none = { s with
          disk := putInode sb disk (s.inum ip) (retired (s.node ip).d)
          node := update s.node ip ⟨false, retired (s.node ip).d⟩ } := by
      simp only [State.put, State.setNode, State.setLock, update_idem]
      rw [← hlock, update_eq_self]
    have hs' : Synced sb { s with
        disk := putInode sb disk (s.inum ip) (retired (s.node ip).d)
        node := update s.node ip ⟨false, retired (s.node ip).d⟩ } := by
      have hs' := hs.lock s.lock
      simp only [State.put, State.setLock, update_idem] at hs'
      exact hs'
    refine cast (congrArg (fun t : State => Q () (t.addRef ip (-1))) hst.symm) ?_
    obtain ⟨hsync', hrefs⟩ := hdrop hs' href
    refine hq _ hsync' hrefs ?_ rfl ?_
    · refine Moves.trans ?_ (moves_addRef b _ ip (-1))
      refine ⟨rfl, rfl, rfl, rfl, rfl, rfl, fun _ _ => rfl, fun jp hb hv => ?_⟩
      have hj : jp ≠ ip := by
        rintro rfl
        omega
      simpa [hj] using hv
    · have hvol₁ : volume sb disk = update (volume sb s.disk) (s.inum ip) _ := hvol
      have hvol₂ : volume sb _ = update (volume sb disk) (s.inum ip) none := hvol'
      rw [hvol₁, update_idem] at hvol₂
      rw [if_pos hf]
      exact hvol₂
  · rw [if_neg fun hc => hf (htest.mp hc)]
    obtain ⟨hsync, hrefs⟩ := hdrop h href
    exact hq _ hsync hrefs (moves_addRef b s ip (-1)) rfl (by rw [if_neg hf]; rfl)

theorem Refs.pos (h : Refs (bump b ip) s) : 0 < (s.ident ip).ref := by
  rw [h ip]
  exact Int.natCast_pos.mpr (bump_pos b ip)

theorem Synced.does_iunlockput (h : Synced sb s) (hT : s.InTrans) (href : Refs (bump b ip) s)
    (hlock : s.lock ip = some p)
    (hq : ∀ s', Synced sb s' → Refs b s' → Moves b s s' → s'.lock = update s.lock ip none →
      (if Frees b s ip then
        volume sb s'.disk = update (volume sb s.disk) (s.inum ip) none
       else s'.disk = s.disk) → Q () s') : Does E p (iunlockput sb ip) Q s := by
  refine does_bind.2 (does_iunlock href.pos hlock ?_)
  have h' : Synced sb (s.setLock ip none) := h.lock _
  refine h'.does_iput (b := b) hT href (fun _ => .inl (update_self ..)) fun s' hs hr hm hl hd => ?_
  exact hq s' hs hr ⟨hm.begun, hm.file, hm.pipe, hm.pstate, hm.ofile, hm.cwd, hm.inum, hm.valid⟩ hl hd

/-! ## `ialloc` -/

def Vnode.fresh (type : Nat) : Vnode := ⟨type, 0, 0, 0, 0, Bytes.fill 0⟩

theorem WellFormed.allocate (h : WellFormed sb ino disk) (hl : ¬Live sb ino i)
    (h0 : ∀ k, n.addrs k = 0) (hs : n.size = 0) : WellFormed sb (update ino i n) disk := by
  have hent (k : Nat) : entry disk n k = 0 := by
    unfold entry
    rw [h0, h0, if_pos rfl, ite_self]
  have hlive {j : Nat} (hj : j ≠ i) : Live sb (update ino i n) j ↔ Live sb ino j := by
    unfold Live
    rw [update_of_ne hj]
  refine ⟨h.owned.grow (fun x hx => ?_) (fun x hx hn => ?_) fun _ _ => rfl, fun j hj => ?_,
    fun j bn hj hbn => ?_⟩
  · have hx' : x.1 ≠ i := fun he => hl (he ▸ hx.1)
    exact ⟨⟨(hlive hx').mpr hx.1, hx.2⟩, by rw [update_of_ne hx']⟩
  · by_cases hx' : x.1 = i
    · rw [hx', update_self, hent]
    · exact absurd ⟨(hlive hx').mp hx.1, hx.2⟩ hn
  · by_cases hji : j = i
    · rw [hji, update_self, hs]
      exact Nat.zero_le _
    · rw [update_of_ne hji]
      exact h.size j hj
  · by_cases hji : j = i
    · rw [hji, update_self, hs] at hbn
      exact absurd hbn (Nat.not_lt_zero _)
    · rw [update_of_ne hji] at hbn ⊢
      exact h.full j bn ((hlive hji).mp hj) hbn

theorem Synced.allocate (h : Synced sb s) (hi : i < sb.ninodes) (hl : ¬Live sb (inode sb s.disk) i)
    (ht : type ≠ 0) (ht' : type < 2 ^ 16) :
    Synced sb { s with disk := putInode sb s.disk i { Dinode.zero with type } } ∧
    volume sb (putInode sb s.disk i { Dinode.zero with type }) =
      update (volume sb s.disk) i (some (.fresh type)) := by
  have hf : ({ Dinode.zero with type } : Dinode).Fits :=
    ⟨ht', Dinode.zero_fits.major, Dinode.zero_fits.minor, Dinode.zero_fits.nlink,
      Dinode.zero_fits.size, Dinode.zero_fits.addrs, Dinode.zero_fits.zero⟩
  have hwf : WellFormed sb (update (inode sb s.disk) i { Dinode.zero with type }) s.disk :=
    h.wf.allocate hl (fun _ => rfl) rfl
  -- an entry that is valid is for another inode
  have hother {jp : Slot} (hj : 0 < (s.ident jp).ref) (hv : (s.node jp).valid = true) :
      inode sb (putInode sb s.disk i { Dinode.zero with type }) (s.inum jp) =
        inode sb s.disk (s.inum jp) := by
    have hlj := h.live jp hj hv
    have hne : s.inum jp ≠ i := fun he => hl (he ▸ hlj)
    rw [inode_put h.geometry .refl hf hlj.1, update_of_ne hne]
  refine ⟨⟨h.geometry, h.bufs, wellFormed_put h.geometry hi hwf .refl hf, h.unique, h.dev,
    fun jp hj hv => ?_, fun jp hj hv => ?_⟩, ?_⟩
  · have hlj := h.live jp hj hv
    refine ⟨hlj.1, ?_⟩
    rw [hother hj hv]
    exact hlj.2
  · rw [hother hj hv]
    exact h.cache jp hj hv
  · rw [volume_put h.geometry hi hwf .refl hf h.wf, if_neg ht]
    congr 2

theorem Synced.does_iallocFrom (h : Synced sb s) (hT : s.InTrans) (href : Refs b s)
    (hE : E.stops (.panic .igetNoInodes)) {n : Nat} (ht : type ≠ 0) (ht' : type < 2 ^ 16)
    (hn : i + n = sb.ninodes) {Q : Option Slot → State → Prop}
    (hnone : (∀ j, i ≤ j → j < sb.ninodes → (volume sb s.disk j).isSome) → Q none s)
    (hsome : ∀ j ip s', i ≤ j → j < sb.ninodes → volume sb s.disk j = none → Synced sb s' →
      Refs (bump b ip) s' → Moves b s s' → s'.lock = s.lock → s'.inum ip = j →
      volume sb s'.disk = update (volume sb s.disk) j (some (.fresh type)) → Q (some ip) s') :
    Does E p (iallocFrom sb ROOTDEV type n i) Q s := by
  induction n generalizing i with
  | zero => exact hnone fun j h₁ h₂ => absurd h₂ (by omega)
  | succ n ih =>
    have hi : i < sb.ninodes := by omega
    refine does_bind.2 (does_bread (h.bufs _) ?_)
    by_cases h0 : (Dinode.load (s.disk (sb.iblock i)) (i % IPB)).type = 0
    · rw [if_pos h0]
      have hl : ¬Live sb (inode sb s.disk) i := fun hl => hl.2 h0
      obtain ⟨hsync, hvol⟩ := h.allocate hi hl ht ht'
      refine does_bind.2 (does_bstore ?_)
      refine does_bind.2 (does_logWrite hT ?_)
      refine does_bind.2 (does_brelse (update_self ..) ?_)
      rw [rewritten s _ _ (h.bufs _)]
      show Does E p (iget ROOTDEV i >>= fun ip => pure (some ip)) Q
        { s with disk := putInode sb s.disk i { Dinode.zero with type } }
      refine does_bind.2 (hsync.does_iget href (fun _ => hE) fun ip s' hs' hr' hm hlk hd hin _ => ?_)
      exact hsome i ip s' le_rfl hi (volume_of_not_live hl) hs' hr'
        ⟨hm.begun, hm.file, hm.pipe, hm.pstate, hm.ofile, hm.cwd, hm.inum, hm.valid⟩ hlk hin
        (by rw [hd]; exact hvol)
    · rw [if_neg h0]
      refine does_bind.2 (does_brelse (update_self ..) ?_)
      rw [setBuf_setBuf, setBuf_none (h.bufs _)]
      refine ih (by omega) (fun hall => hnone fun j h₁ h₂ => ?_) fun j ip s' hj =>
        hsome j ip s' (by omega)
      by_cases hji : j = i
      · rw [hji, volume_of_live ⟨hi, h0⟩]
        rfl
      · exact hall j (by omega) h₂

/-- **`ialloc`.** -/
theorem Synced.does_ialloc (h : Synced sb s) (hT : s.InTrans) (href : Refs b s)
    (hE : E.stops (.panic .igetNoInodes)) (ht : type ≠ 0) (ht' : type < 2 ^ 16)
    {Q : Option Slot → State → Prop}
    (hnone : (∀ j, 1 ≤ j → j < sb.ninodes → (volume sb s.disk j).isSome) → Q none s)
    (hsome : ∀ j ip s', 1 ≤ j → j < sb.ninodes → volume sb s.disk j = none → Synced sb s' →
      Refs (bump b ip) s' → Moves b s s' → s'.lock = s.lock → s'.inum ip = j →
      volume sb s'.disk = update (volume sb s.disk) j (some (.fresh type)) → Q (some ip) s') :
    Does E p (ialloc sb ROOTDEV type) Q s := by
  unfold ialloc
  by_cases hn : sb.ninodes = 0
  · rw [hn]
    exact hnone fun j _ h₂ => absurd h₂ (by omega)
  · exact h.does_iallocFrom hT href hE ht ht' (by omega) hnone hsome

end

end ZeptOS.Fs
