import ZeptOS.Fs.Inodes

/-!
# Directories

A directory is a file of entries, 16 bytes each, of which those with number 0 are empty. `dirlookup`
answers the first entry that has the name; `dirlink` takes the first empty entry, or one at the end. An
entry is never in two blocks, so it is written as a whole or not at all.
-/

namespace ZeptOS.Fs

open Lib Lib.Code Function

variable {off fuel : Nat} {de : Dirent} {ip : Slot} {data : Bytes} {E : Env} {p : Proc}
  {sb : Superblock} {s : State}

def Vnode.slot (v : Vnode) (k : Nat) : Dirent := Dirent.decode (v.bytes.slice (16 * k) 16)

abbrev Vnode.slots (v : Vnode) : Nat := v.size / 16

def Vnode.Holds (v : Vnode) (name : List UInt8) (k : Nat) : Prop :=
  k < v.slots ∧ (v.slot k).inum ≠ 0 ∧ namecmp name (v.slot k).name = 0

def Vnode.setSlot (v : Vnode) (k : Nat) (de : Dirent) : Vnode :=
  v.write (16 * k) 16 fun i => de.encode.getD i 0

structure Dirent.Fits (de : Dirent) : Prop where
  inum : de.inum < 2 ^ 16
  name : de.name.length = DIRSIZ

theorem slice_getD (bs : List UInt8) : Bytes.slice (fun i => bs.getD i 0) 0 bs.length = bs := by
  refine List.ext_getElem? fun i => ?_
  by_cases hi : i < bs.length
  · rw [Bytes.getElem?_slice hi, Nat.zero_add, List.getD_eq_getElem?_getD, List.getElem?_eq_getElem hi]
    rfl
  · rw [List.getElem?_eq_none (by rw [Bytes.length_slice]; omega), List.getElem?_eq_none (by omega)]

variable {v : Vnode} {k : Nat}

theorem slot_setSlot (h : de.Fits) (j : Nat) :
    (v.setSlot k de).slot j = if j = k then de else v.slot j := by
  unfold Vnode.slot Vnode.setSlot Vnode.write
  by_cases hj : j = k
  · rw [if_pos hj, hj]
    have hs : Bytes.slice (fun x => if 16 * k ≤ x ∧ x < 16 * k + 16 then
        (fun i => de.encode.getD i 0) (x - 16 * k) else v.bytes x) (16 * k) 16 =
        Bytes.slice (fun i => de.encode.getD i 0) 0 16 := by
      refine Bytes.slice_congr fun i hi => ?_
      rw [if_pos (by omega), Nat.add_sub_cancel_left, Nat.zero_add]
    have hlen := slice_getD de.encode
    rw [Dirent.length_encode h.name] at hlen
    dsimp only
    rw [hs, hlen]
    exact Dirent.decode_encode h.inum h.name
  · rw [if_neg hj]
    congr 1
    refine Bytes.slice_congr fun i hi => ?_
    exact if_neg (by omega)

theorem size_setSlot (v : Vnode) (k : Nat) (de : Dirent) :
    (v.setSlot k de).size = max v.size (16 * k + 16) := rfl

theorem write_none (h : off ≤ v.size) : v.write off 0 data = v := by
  unfold Vnode.write
  rw [Nat.add_zero, Nat.max_eq_left h]
  congr 1
  funext x
  rw [if_neg (by omega)]

theorem smear_none (v : Vnode) (lo : Nat) (data : Bytes) : v.smear lo 0 data = v := by
  unfold Vnode.smear
  congr 1
  funext x
  rw [if_neg (by omega)]

theorem write_congr {tot : Nat} {data' : Bytes} (h : ∀ k, k < tot → data k = data' k) :
    v.write off tot data = v.write off tot data' := by
  unfold Vnode.write
  congr 1
  funext x
  split
  · exact h _ (by omega)
  · rfl

variable {name : List UInt8}

/-! ## Reading entries -/

abbrev State.vnode (s : State) (ip : Slot) : Vnode := Fs.vnode s.disk (s.node ip).d

def Entry (s : State) (ip : Slot) (off : Nat) : Prop :=
  ∀ x, off ≤ x → x < off + 16 → x < (s.node ip).d.size → Readable s ip x

theorem does_readDirent (hbufs : ∀ b, s.buf b = none) {e : Panic} (hoff : off < (s.node ip).d.size)
    (hent : Entry s ip off) (he : off + 16 ≤ (s.node ip).d.size ∨ E.stops (.panic e))
    {Q : Dirent → State → Prop}
    (hq : off + 16 ≤ (s.node ip).d.size → Q (Dirent.decode ((s.vnode ip).bytes.slice off 16)) s) :
    Does E p (readDirent sb e ip off) Q s := by
  have hlt : off + 16 < 2 ^ 32 := by
    have hx := (hent off le_rfl (by omega) hoff).1
    have hm := Nat.div_add_mod off BSIZE
    have hm' := mod_BSIZE_lt off
    have hmul : BSIZE * (off / BSIZE) ≤ BSIZE * MAXFILE := Nat.mul_le_mul_left _ (Nat.le_of_lt hx)
    have hc : BSIZE * MAXFILE + BSIZE + 16 < 2 ^ 32 := by decide
    omega
  have hlen : readLen (s.node ip).d.size off 16 = min 16 ((s.node ip).d.size - off) := by
    unfold readLen
    rw [Nat.mod_eq_of_lt hlt, if_neg (by omega)]
  refine (does_readi hbufs .kernel fun x h₁ h₂ => ?_).call ?_
  · rw [hlen] at h₂
    exact hent x h₁ (by omega) (by omega)
  rintro r s' ⟨rfl, rfl | ⟨-, hne⟩⟩
  · rw [hlen]
    by_cases hfit : off + 16 ≤ (s'.node ip).d.size
    · rw [show min 16 ((s'.node ip).d.size - off) = 16 by omega, if_neg (by simp)]
      refine cast (congrArg (Q · s') (congrArg Dirent.decode ?_)) (hq hfit)
      rw [List.nil_append]
      refine Bytes.slice_congr fun i hi => ?_
      exact if_pos (by omega)
    · rw [if_pos (by simp only [ne_eq]; omega)]
      exact does_panic (he.resolve_left hfit)
  · exact absurd rfl hne

theorem does_dirlookupFrom (hbufs : ∀ b, s.buf b = none)
    (hent : ∀ k, 16 * k < (s.node ip).d.size → (∀ l, l < k → ¬(s.vnode ip).Holds name l) →
      Entry s ip (16 * k)) (hdiv : 16 ∣ (s.node ip).d.size ∨ E.stops (.panic .dirlookupRead))
    (hfuel : (s.node ip).d.size / 16 + 1 ≤ fuel + k)
    (hprev : ∀ j, j < k → ¬(s.vnode ip).Holds name j) {Q : Option (Nat × Nat) → State → Prop}
    (hnone : (∀ j, ¬(s.vnode ip).Holds name j) → Q none s)
    (hsome : ∀ j, (s.vnode ip).Holds name j → (∀ l, l < j → ¬(s.vnode ip).Holds name l) →
      Q (some (((s.vnode ip).slot j).inum, 16 * j)) s) :
    Does E p (dirlookupFrom sb ip name fuel (16 * k)) Q s := by
  have hend {k : Nat} (hprev : ∀ j, j < k → ¬(s.vnode ip).Holds name j)
      (hk : (s.node ip).d.size ≤ 16 * k) : Q none s := by
    refine hnone fun j hj => ?_
    have hlt : j < (s.node ip).d.size / 16 := hj.1
    exact hprev j (by omega) hj
  induction fuel generalizing k with
  | zero => exact hend hprev (by omega)
  | succ fuel ih =>
    refine does_bind.2 (does_node ?_)
    by_cases hk : 16 * k < (s.node ip).d.size
    · rw [if_pos hk]
      refine does_bind.2 (does_readDirent hbufs hk (hent k hk hprev) ?_ fun hfit => ?_)
      · exact hdiv.imp_left fun hdiv => by omega
      · rw [show Dirent.decode _ = (s.vnode ip).slot k from rfl]
        have hks : k < (s.vnode ip).slots := by
          show k < (s.node ip).d.size / 16
          omega
        have hstep (hn : ¬(s.vnode ip).Holds name k) :
            Does E p (dirlookupFrom sb ip name fuel (16 * k + 16)) Q s := by
          refine ih (k := k + 1) (by omega) fun j hj => ?_
          rcases Nat.lt_succ_iff_lt_or_eq.mp hj with hlt | rfl
          · exact hprev j hlt
          · exact hn
        by_cases h0 : ((s.vnode ip).slot k).inum = 0
        · rw [if_pos h0]
          exact hstep fun hc => hc.2.1 h0
        · rw [if_neg h0]
          by_cases hname : namecmp name ((s.vnode ip).slot k).name = 0
          · rw [if_pos hname]
            exact hsome k ⟨hks, h0, hname⟩ hprev
          · rw [if_neg hname]
            exact hstep fun hc => hname hc.2.2
    · rw [if_neg hk]
      exact hend hprev (by omega)

section

variable {b : Slot → Nat} (h : Synced sb s) (hr : 0 < (s.ident ip).ref)
  (hv : (s.node ip).valid = true)
include h hr hv

theorem Synced.volume_slot : volume sb s.disk (s.inum ip) = some (s.vnode ip) := by
  rw [volume_of_live (h.live ip hr hv), ← h.cache ip hr hv]

theorem Synced.vnode_of_volume (hvol : volume sb s.disk (s.inum ip) = some v) :
    s.vnode ip = v := Option.some.inj ((h.volume_slot hr hv).symm.trans hvol)

theorem Synced.readable {x : Nat} (hx : x < (s.node ip).d.size) : Readable s ip x := by
  have hl := h.live ip hr hv
  have hd := h.cache ip hr hv
  have hsize : (s.node ip).d.size ≤ MAXFILE * BSIZE := by
    rw [hd]
    exact h.wf.size _ hl.1
  refine ⟨Nat.div_lt_of_lt_mul (by rw [Nat.mul_comm]; omega), ?_⟩
  have hm := Nat.div_mul_le_self x BSIZE
  rw [hd] at hx ⊢
  exact h.wf.full _ _ hl (by omega)

theorem Synced.entry (off : Nat) : Entry s ip off := fun _ _ _ hx => h.readable hr hv hx

/-- **`dirlookup`** answers the first entry with the name. -/
theorem Synced.does_dirlookup (href : Refs b s)
    (hE : s.empty = none → E.stops (.panic .igetNoInodes))
    (htype : (s.node ip).d.type = T_DIR ∨ E.stops (.panic .dirlookupNotDir))
    (hdiv : 16 ∣ (s.node ip).d.size ∨ E.stops (.panic .dirlookupRead))
    {Q : Option (Slot × Nat) → State → Prop} (hnone : (∀ j, ¬(s.vnode ip).Holds name j) → Q none s)
    (hsome : ∀ j jp s', (s.vnode ip).Holds name j → (∀ l, l < j → ¬(s.vnode ip).Holds name l) →
      Synced sb s' → Refs (bump b jp) s' → Moves b s s' → s'.lock = s.lock → s'.disk = s.disk →
      s'.inum jp = ((s.vnode ip).slot j).inum → (b jp = 0 → (s'.node jp).valid = false) →
      Q (some (jp, 16 * j)) s') : Does E p (dirlookup sb ip name) Q s := by
  refine does_bind.2 (does_node ?_)
  dsimp only
  by_cases ht : (s.node ip).d.type = T_DIR
  · rw [if_neg (not_not.mpr ht)]
    refine does_bind.2 (does_dirlookupFrom (k := 0) h.bufs (fun _ _ _ => h.entry hr hv _) hdiv le_rfl
      (fun j hj => absurd hj (Nat.not_lt_zero _)) (fun hn => ?_) fun j hj hfirst => ?_)
    · exact hnone hn
    · dsimp only
      refine does_bind.2 (does_ident ?_)
      rw [h.dev ip hr]
      refine does_bind.2 (h.does_iget href hE fun jp s' hs hrf hm hlk hd hi hval => ?_)
      exact hsome j jp s' hj hfirst hs hrf hm hlk hd hi hval
  · rw [if_pos ht]
    exact does_panic (htype.resolve_left ht)

/-! ## `dirlink` -/

theorem Synced.does_emptyDirentFrom (hdiv : 16 ∣ (s.node ip).d.size ∨ E.stops (.panic .dirlinkRead))
    (hfuel : (s.node ip).d.size / 16 + 1 ≤ fuel + k) (hk : k ≤ (s.node ip).d.size / 16)
    (hprev : ∀ j, j < k → ((s.vnode ip).slot j).inum ≠ 0) {Q : Nat → State → Prop}
    (hq : ∀ j, 16 * j ≤ (s.node ip).d.size → (∀ l, l < j → ((s.vnode ip).slot l).inum ≠ 0) →
      (16 * j < (s.node ip).d.size → ((s.vnode ip).slot j).inum = 0) → Q (16 * j) s) :
    Does E p (emptyDirentFrom sb ip fuel (16 * k)) Q s := by
  induction fuel generalizing k with
  | zero => omega
  | succ fuel ih =>
    refine does_bind.2 (does_node ?_)
    by_cases hlt : 16 * k < (s.node ip).d.size
    · rw [if_pos hlt]
      refine does_bind.2 (does_readDirent h.bufs hlt (h.entry hr hv _) ?_ fun hfit => ?_)
      · exact hdiv.imp_left fun hdiv => by omega
      · rw [show Dirent.decode _ = (s.vnode ip).slot k from rfl]
        by_cases h0 : ((s.vnode ip).slot k).inum = 0
        · rw [if_pos h0]
          exact hq k (Nat.le_of_lt hlt) hprev fun _ => h0
        · rw [if_neg h0]
          refine ih (k := k + 1) (by omega) (by omega) fun j hj => ?_
          rcases Nat.lt_succ_iff_lt_or_eq.mp hj with hlt | rfl
          · exact hprev j hlt
          · exact h0
    · rw [if_neg hlt]
      exact hq k (by omega) hprev fun hc => absurd hc hlt

/-- **An entry is written as a whole or not at all.** -/
theorem Synced.does_writeSlot (hT : s.InTrans) (hk : 16 * k ≤ (s.node ip).d.size)
    {Q : Int → State → Prop} (hdone : ∀ disk d, Synced sb (s.put disk ip d) →
      volume sb disk = update (volume sb s.disk) (s.inum ip) (some ((s.vnode ip).setSlot k de)) →
      ((∀ x, x < sb.size → used sb s.disk x = true) →
        mapped s.disk (s.node ip).d (16 * k / BSIZE) ≠ 0) → Q 16 (s.put disk ip d))
    (hfail : ∀ r s', r ≠ 16 → Synced sb s' → (s' = s ∨ ∃ disk d, s' = s.put disk ip d) →
      volume sb s'.disk = volume sb s.disk → (s.node ip).d.size < 16 * k + 16 →
      ((∀ x, x < sb.size → used sb s'.disk x = true) ∨ 16 * k + 16 > MAXFILE * BSIZE) → Q r s') :
    Does E p (writei sb ip de.src (16 * k) 16) Q s := by
  have hl := h.live ip hr hv
  have hd := h.cache ip hr hv
  have hsize := h.wf.size _ hl.1
  rw [← hd] at hsize
  refine (h.does_writei hT hr hv de.src (16 * k) 16).mono fun r s' hw => ?_
  unfold WriteDone at hw
  by_cases hmax : 16 * k + 16 ≤ MAXFILE * BSIZE
  · rw [if_pos ⟨hk, hmax⟩] at hw
    obtain ⟨tot, disk, d, data, stray, rfl, rfl, hw⟩ := hw
    have hwhy := hw.why_kernel
    obtain rfl : stray = 0 := hwhy.elim And.right And.left
    have hvol := hw.volume
    rw [← hd, smear_none] at hvol
    by_cases htot : tot = 16
    · subst htot
      have hgives : ∀ i, i < 16 → data i = de.encode.getD i 0 := fun i hi => hw.gives i hi
      rw [write_congr hgives] at hvol
      refine hdone disk d hw.synced hvol fun hfull => ?_
      have hvalid : ((s.put disk ip d).node ip).valid = true := by rw [put_node]
      have hnew : (s.put disk ip d).vnode ip = (s.vnode ip).setSlot k de :=
        hw.synced.vnode_of_volume hr hvalid ((congrFun hvol _).trans (update_self ..))
      have hlt : 16 * k < ((s.put disk ip d).vnode ip).size := by
        rw [hnew, size_setSlot]
        omega
      have hthere := hw.synced.readable hr hvalid hlt
      rw [Readable, put_node] at hthere
      exact hw.mapped_of_full h hr hv hfull hthere.1 hthere.2
    · have h0 : tot = 0 := by
        have hmost := hw.most
        rcases hw.stop (by omega) with h0 | h0
        · exact h0
        · rw [show BSIZE = 16 * 64 from rfl, Nat.mod_mul, Nat.mul_add_mod] at h0
          omega
      subst h0
      refine hfail _ _ (by decide) hw.synced (.inr ⟨disk, d, rfl⟩) ?_ ?_ ?_
      · rw [show (s.put disk ip d).disk = disk from rfl, hvol, write_none hk,
          ← h.volume_slot hr hv, update_eq_self]
      · -- a block that is there is written
        by_contra hin
        have hthere := h.readable hr hv (x := 16 * k) (by omega)
        rcases hw.why with ⟨hc, -⟩ | ⟨-, hnot, -⟩ | ⟨a, c, k, hsrc, -⟩
        · exact absurd hc (by decide)
        · rw [Nat.add_zero, mapped, hw.entries _ (place_lt hthere.1) hthere.2] at hnot
          exact hthere.2 hnot
        · cases hsrc
      · exact .inl (hwhy.resolve_left fun hc => by omega).2
  · rw [if_neg fun hc => hmax hc.2] at hw
    obtain ⟨rfl, rfl⟩ := hw
    exact hfail _ _ (by decide) h (.inl rfl) rfl (by omega) (.inr (by omega))

def newEntry (name : List UInt8) (inum : Nat) : Dirent := ⟨inum % 2 ^ 16, strncpy name DIRSIZ⟩

omit h hr hv in
theorem newEntry_fits (name : List UInt8) (inum : Nat) : (newEntry name inum).Fits :=
  ⟨Nat.mod_lt _ (by decide), length_strncpy _ _⟩

/-- **`dirlink`**, to a directory that somebody has a reference to. -/
theorem Synced.does_dirlink {inum : Nat} (hT : s.InTrans) (href : Refs b s)
    (hE : s.empty = none → E.stops (.panic .igetNoInodes))
    (htype : (s.node ip).d.type = T_DIR ∨ E.stops (.panic .dirlookupNotDir))
    (hdiv : 16 ∣ (s.node ip).d.size ∨ E.stops (.panic .dirlookupRead) ∧ E.stops (.panic .dirlinkRead))
    {Q : Bool → State → Prop}
    (hdone : ∀ k disk d, (∀ j, ¬(s.vnode ip).Holds name j) → 16 * k ≤ (s.node ip).d.size →
      (∀ l, l < k → ((s.vnode ip).slot l).inum ≠ 0) →
      (16 * k < (s.node ip).d.size → ((s.vnode ip).slot k).inum = 0) → Synced sb (s.put disk ip d) →
      volume sb disk = update (volume sb s.disk) (s.inum ip)
        (some ((s.vnode ip).setSlot k (newEntry name inum))) →
      ((∀ x, x < sb.size → used sb s.disk x = true) →
        mapped s.disk (s.node ip).d (16 * k / BSIZE) ≠ 0) → Q true (s.put disk ip d))
    (hfail : ∀ s', Synced sb s' → Refs b s' → Moves b s s' → s'.lock = s.lock →
      volume sb s'.disk = volume sb s.disk → ((∃ j, (s.vnode ip).Holds name j) ∨
        (∀ l, l < (s.vnode ip).slots → ((s.vnode ip).slot l).inum ≠ 0) ∧
        ((∀ x, x < sb.size → used sb s'.disk x = true) ∨
          (s.node ip).d.size + 16 > MAXFILE * BSIZE)) → Q false s') :
    Does E p (dirlink sb ip name inum) Q s := by
  unfold dirlink
  refine does_bind.2 (h.does_dirlookup hr hv href hE htype (hdiv.imp_right And.left) (fun hn => ?_)
    fun j jp s' hj _ hs hrf hm hlk hdk _ hval => ?_)
  · dsimp only
    refine does_bind.2 (does_node ?_)
    refine does_bind.2 (h.does_emptyDirentFrom hr hv (k := 0) (hdiv.imp_right And.right) le_rfl
      (Nat.zero_le _) (fun j hj => absurd hj (Nat.not_lt_zero _)) fun k hk hfirst hempty => ?_)
    refine does_bind.2 (h.does_writeSlot hr hv hT hk (fun disk d hs hvol hroom => ?_)
      fun r s' hne hs hput hvol hend hwhy => ?_)
    · exact hdone k disk d hn hk hfirst hempty hs hvol hroom
    · show Q (r == 16) s'
      rw [beq_false_of_ne hne]
      have hmoves : Refs b s' ∧ Moves b s s' ∧ s'.lock = s.lock := by
        rcases hput with rfl | ⟨disk, d, rfl⟩
        · exact ⟨href, .refl b s', rfl⟩
        · exact ⟨href, .put b s disk ip d, rfl⟩
      refine hfail s' hs hmoves.1 hmoves.2.1 hmoves.2.2 hvol
        (.inr ⟨fun l hlt => hfirst l ?_, hwhy.imp_right fun hgt => by omega⟩)
      have hlt' : l < (s.node ip).d.size / 16 := hlt
      omega
  · -- the name is there, and its inode is not freed
    have hkeep : ¬Frees b s' jp := fun hf =>
      Bool.false_ne_true ((hval hf.1).symm.trans hf.2.1)
    dsimp only
    refine does_bind.2 (hs.does_iput (hm.inTrans hT) hrf (fun hf => absurd hf hkeep)
      fun s'' hs' hrf' hm' hlk' hd' => ?_)
    rw [if_neg hkeep] at hd'
    exact hfail s'' hs' hrf' (hm.trans hm') (hlk'.trans hlk) (by rw [hd', hdk]) (.inl ⟨j, hj⟩)

end

end ZeptOS.Fs
