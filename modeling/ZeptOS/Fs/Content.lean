import ZeptOS.Fs.Blocks

/-!
# Reading and writing files

`readi` answers a slice of the content of a file that has all its blocks, and changes nothing.
`writei` overwrites a region of it, which may begin at the end of the file, as far as there are blocks and as
far as the data can be had (`Writes`). So on every way out the file has all its blocks up to its size.
-/

namespace ZeptOS.Fs

open Lib Lib.Code Function

variable {m off fuel : Nat} {disk disk' : Disk} {data data' : Bytes} {E : Env} {p : Proc}
  {sb : Superblock} {s : State} {ip : Slot} {dst : Dst} {ino : Nat → Dinode}

/-! ## `readi` -/

def readLen (size off n : Nat) : Nat :=
  if off > size ∨ (off + n) % 2 ^ 32 < off then 0 else min n (size - off)

variable {d : Dinode}

theorem slice_block (hm : m ≤ BSIZE - off % BSIZE) (h0 : mapped disk d (off / BSIZE) ≠ 0) :
    Bytes.slice (disk (mapped disk d (off / BSIZE))) (off % BSIZE) m =
      Bytes.slice (content disk d) off m := by
  refine Bytes.slice_congr fun i hi => ?_
  have hlt : off % BSIZE + i < BSIZE := by
    have := mod_BSIZE_lt off
    omega
  have hdiv : (off + i) / BSIZE = off / BSIZE := by
    have hd := Nat.div_add_mod off BSIZE
    rw [← hd, Nat.add_assoc, Nat.mul_add_div (by decide), Nat.mul_add_div (by decide),
      Nat.div_eq_of_lt hlt, Nat.div_eq_of_lt (Nat.mod_lt _ (by decide))]
  have hmod : (off + i) % BSIZE = off % BSIZE + i := by
    rw [Nat.add_mod, Nat.mod_eq_of_lt (show i < BSIZE by omega), Nat.mod_eq_of_lt hlt]
  unfold content
  rw [hdiv, if_neg h0, hmod]

variable {tot n : Nat}

theorem does_eitherCopyout {bs : List UInt8} {Q : Bool → State → Prop} (ht : Q true s)
    (hf : dst ≠ .kernel → Q false s) : Does E p (eitherCopyout dst tot bs) Q s := by
  cases dst with
  | kernel => exact ht
  | user a =>
    refine does_copyout fun r => ?_
    cases r with
    | true => exact ht
    | false => exact hf nofun

def Readable (s : State) (ip : Slot) (x : Nat) : Prop :=
  x / BSIZE < MAXFILE ∧ mapped s.disk (s.node ip).d (x / BSIZE) ≠ 0

/-- What `readi` answers when there are blocks: the bytes, unless the user's memory cannot be written. -/
def Reads (s : State) (ip : Slot) (dst : Dst) (off n : Nat) (acc : List UInt8) (tot : Int)
    (r : Int × List UInt8) (s' : State) : Prop :=
  s' = s ∧ (r = (tot, acc ++ Bytes.slice (content s.disk (s.node ip).d) off n) ∨
    (r.1 = -1 ∧ dst ≠ .kernel))

theorem does_readiFrom (hbufs : ∀ b, s.buf b = none) {acc : List UInt8} (htot : tot ≤ n)
    (hmap : ∀ x, off ≤ x → x < off + (n - tot) → Readable s ip x) (hfuel : n - tot ≤ fuel) :
    Does E p (readiFrom sb ip dst n fuel tot off acc) (Reads s ip dst off (n - tot) acc n) s := by
  induction fuel generalizing tot off acc with
  | zero =>
    obtain rfl : tot = n := by omega
    refine ⟨rfl, .inl ?_⟩
    rw [Nat.sub_self, Bytes.slice, List.range_zero, List.map_nil, List.append_nil]
  | succ fuel ih =>
    unfold readiFrom
    by_cases hlt : tot < n
    · rw [if_pos hlt]
      obtain ⟨hmax, h0⟩ := hmap off le_rfl (by omega)
      have hmod := mod_BSIZE_lt off
      refine does_bind.2 (does_bmap_mapped hbufs hmax h0 ?_)
      rw [if_neg h0]
      refine does_bind.2 (does_bread (hbufs _) ?_)
      dsimp only
      have hrel : ((s.setBuf (mapped s.disk (s.node ip).d (off / BSIZE)) (some p)).buf
          (mapped s.disk (s.node ip).d (off / BSIZE))) = some p := update_self ..
      refine does_bind.2 (does_eitherCopyout ?_ fun hd => ?_)
      · rw [if_pos rfl]
        refine does_bind.2 (does_brelse hrel ?_)
        rw [setBuf_setBuf, setBuf_none (hbufs _), slice_block (Nat.min_le_right _ _) h0]
        refine (ih (by omega) (fun x h₁ h₂ => hmap x (by omega) (by omega)) (by omega)).mono ?_
        rintro r s' ⟨rfl, hr⟩
        refine ⟨rfl, hr.imp_left fun hr => ?_⟩
        rw [hr, List.append_assoc, Bytes.slice_append]
        congr 3
        omega
      · rw [if_neg Bool.false_ne_true]
        refine does_bind.2 (does_brelse hrel ?_)
        rw [setBuf_setBuf, setBuf_none (hbufs _)]
        exact ⟨rfl, .inr ⟨rfl, hd⟩⟩
    · rw [if_neg hlt]
      obtain rfl : tot = n := by omega
      refine ⟨rfl, .inl ?_⟩
      rw [Nat.sub_self, Bytes.slice, List.range_zero, List.map_nil, List.append_nil]

/-- **`readi`**, where there are blocks for what it reads. -/
theorem does_readi (hbufs : ∀ b, s.buf b = none) (dst : Dst)
    (hmap : ∀ x, off ≤ x → x < off + readLen (s.node ip).d.size off n → Readable s ip x) :
    Does E p (readi sb ip dst off n) (Reads s ip dst off (readLen (s.node ip).d.size off n) []
      (readLen (s.node ip).d.size off n)) s := by
  unfold readLen at hmap ⊢
  unfold readi
  refine does_bind.2 (does_node ?_)
  dsimp only
  by_cases hc : off > (s.node ip).d.size ∨ (off + n) % 2 ^ 32 < off
  · rw [if_pos hc, if_pos hc]
    exact ⟨rfl, .inl rfl⟩
  · rw [if_neg hc] at hmap
    rw [if_neg hc, if_neg hc]
    have hmin : (if off + n > (s.node ip).d.size then (s.node ip).d.size - off else n) =
        min n ((s.node ip).d.size - off) := by
      split <;> omega
    rw [hmin]
    exact does_readiFrom hbufs (Nat.zero_le _) hmap le_rfl

/-! ## `iupdate` -/

theorem does_iupdate {Q : Unit → State → Prop} (hT : s.InTrans) (hbufs : ∀ b, s.buf b = none)
    (hq : Q () { s with disk := putInode sb s.disk (s.ident ip).inum (s.node ip).d }) :
    Does E p (iupdate sb ip) Q s := by
  refine does_bind.2 (does_ident ?_)
  refine does_bind.2 (does_bread (hbufs _) ?_)
  refine does_bind.2 (does_node ?_)
  refine does_bind.2 (does_bstore ?_)
  refine does_bind.2 (does_logWrite hT ?_)
  refine does_brelse (update_self ..) ?_
  rw [rewritten s _ _ (hbufs _)]
  exact hq

/-! ## `writei` -/

/-- **The bytes from `lo` to `hi` of inode `i` are overwritten**, and then it is `n`. -/
structure Writes (sb : Superblock) (ino : Nat → Dinode) (i : Nat) (disk : Disk) (data : Bytes)
    (lo hi : Nat) (n : Dinode) (disk' : Disk) : Prop where
  wf : WellFormed sb (Function.update ino i n) disk'
  kept : Kept sb ino i disk disk'
  same : n = { ino i with addrs := n.addrs }
  fits : n.Fits
  entries : ∀ k, k < NPLACE → entry disk (ino i) k ≠ 0 → entry disk' n k = entry disk (ino i) k
  there : ∀ x, lo ≤ x → x < hi → mapped disk' n (x / BSIZE) ≠ 0
  content : ∀ x, x < MAXFILE * BSIZE →
    content disk' n x = if lo ≤ x ∧ x < hi then data x else content disk (ino i) x

section Writes

variable {i : Nat} {lo mid hi : Nat} {n : Dinode}

theorem Grows.writes (h : Grows sb ino i disk n disk') : Writes sb ino i disk data lo lo n disk' where
  wf := h.wf
  kept := h.kept
  same := h.same
  fits := h.fits
  entries := h.entries
  there x h₁ h₂ := absurd h₁ (Nat.not_le_of_lt h₂)
  content x hx := by rw [h.content x hx, if_neg (by omega)]

theorem Writes.congr (h : Writes sb ino i disk data lo hi n disk')
    (he : ∀ x, lo ≤ x → x < hi → data' x = data x) : Writes sb ino i disk data' lo hi n disk' where
  wf := h.wf
  kept := h.kept
  same := h.same
  fits := h.fits
  entries := h.entries
  there := h.there
  content x hx := by
    rw [h.content x hx]
    split
    · next hc => exact (he x hc.1 hc.2).symm
    · rfl

theorem Writes.trans {n' : Dinode} {disk'' : Disk} (h : Writes sb ino i disk data lo mid n disk')
    (h' : Writes sb (update ino i n) i disk' data mid hi n' disk'') (h₁ : lo ≤ mid)
    (h₂ : mid ≤ hi) (hhi : hi ≤ MAXFILE * BSIZE) : Writes sb ino i disk data lo hi n' disk'' := by
  obtain ⟨wf, kept, same, fits, entries, there, content⟩ := h'
  rw [update_idem] at wf
  simp only [update_self] at same entries content
  refine ⟨wf, h.kept.trans kept, ?_, fits, fun k hk h0 => ?_, fun x hx₁ hx₂ => ?_, fun x hx => ?_⟩
  · rw [same, h.same]
  · have he := h.entries k hk h0
    rw [entries k hk (by rwa [he]), he]
  · by_cases hm : x < mid
    · have h0 := h.there x hx₁ hm
      have hlt : x / BSIZE < MAXFILE := Nat.div_lt_of_lt_mul (by rw [Nat.mul_comm]; omega)
      rw [mapped, entries _ (place_lt hlt) h0]
      exact h0
    · exact there x (by omega) hx₂
  · rw [content x hx, h.content x hx]
    split
    · next hc => rw [if_pos (by omega)]
    · next hc =>
      congr 1
      exact propext (by omega)

/-- **What `writei` does with one block**: after blocks may have been added, `m` bytes go to it. -/
theorem Grows.writeBlock (hg : sb.Geometry) (h : Grows sb ino i disk n disk') (hl : Live sb ino i)
    (hm : m ≤ BSIZE - off % BSIZE) (hoff : off < MAXFILE * BSIZE)
    (h0 : mapped disk' n (off / BSIZE) ≠ 0) (bs : Bytes) :
    Writes sb ino i disk (fun x => bs (x - off)) off (off + m) n (update disk' (mapped disk' n (off / BSIZE))
      (Bytes.blit (disk' (mapped disk' n (off / BSIZE))) (off % BSIZE) (bs.slice 0 m))) := by
  have hself : update ino i n i = n := update_self ..
  have hlive : Live sb (update ino i n) i := by
    refine ⟨hl.1, ?_⟩
    rw [hself, h.same]
    exact hl.2
  have hbn : off / BSIZE < MAXFILE := Nat.div_lt_of_lt_mul (by rwa [Nat.mul_comm] at hoff)
  obtain ⟨wf, kept, entries, content⟩ := h.wf.writeBlock hg hlive hbn
    (by rwa [hself]) (Bytes.blit (disk' (mapped disk' n (off / BSIZE))) (off % BSIZE) (bs.slice 0 m))
  rw [hself] at wf kept entries content
  have hmod := mod_BSIZE_lt off
  have hdm := Nat.div_add_mod off BSIZE
  -- the block that a byte of the region is in
  have hin {x : Nat} (h₁ : off ≤ x) (h₂ : x < off + m) : x / BSIZE = off / BSIZE := by
    refine Nat.div_eq_of_lt_le ?_ ?_
    · rw [Nat.mul_comm]
      omega
    · rw [Nat.mul_comm, Nat.mul_add, Nat.mul_one]
      omega
  refine ⟨wf, h.kept.trans kept, h.same, h.fits, fun k hk hk0 => ?_, fun x h₁ h₂ => ?_,
    fun x hx => ?_⟩
  · rw [entries, h.entries k hk hk0]
  · rw [hin h₁ h₂, mapped, entries]
    exact h0
  · rw [content x hx]
    have hxm := Nat.div_add_mod x BSIZE
    by_cases hb : x / BSIZE = off / BSIZE
    · rw [if_pos hb, Bytes.blit_slice]
      rw [hb] at hxm
      by_cases hr : off ≤ x ∧ x < off + m
      · rw [if_pos (by omega), if_pos hr]
        congr 1
        omega
      · rw [if_neg (by omega), if_neg hr, ← h.content x hx]
        unfold Fs.content
        rw [hb, if_neg h0]
    · rw [if_neg hb, if_neg fun hr => hb (hin hr.1 hr.2), h.content x hx]

end Writes

def Src.Gives (E : Env) (src : Src) (k : Nat) (x : UInt8) : Prop :=
  match src with
  | .kernel bs => x = bs k
  | .user a => ∃ tot m c, E.copyin (a + tot) m c ∧ c.fault = none ∧ tot ≤ k ∧ k < tot + m ∧
      x = c.bytes (k - tot)

/-- Copying `m` bytes fails after `tot` bytes, when `stray` of them have been copied. -/
def Src.Faults (E : Env) (src : Src) (tot m stray : Nat) (data : Bytes) : Prop :=
  ∃ a c k, src = .user a ∧ E.copyin (a + tot) m c ∧ c.fault = some k ∧ stray = min k m ∧
    ∀ j, j < stray → data j = c.bytes j

section

variable {src : Src}

theorem does_eitherCopyin {Q : Copied → State → Prop}
    (hs : ∀ bs, (∀ k, k < m → src.Gives E (tot + k) (bs k)) → Q ⟨bs, none⟩ s)
    (hn : ∀ bs k, src.Faults E tot m (min k m) bs → Q ⟨bs, some k⟩ s) :
    Does E p (eitherCopyin src tot m) Q s := by
  cases src with
  | kernel bs => exact hs _ fun k _ => rfl
  | user a =>
    refine does_copyin fun r hr => ?_
    obtain ⟨bs, fault⟩ := r
    cases fault with
    | none => exact hs bs fun k hk => ⟨tot, m, ⟨bs, none⟩, hr, rfl, by omega, by omega, by simp⟩
    | some k => exact hn bs k ⟨a, ⟨bs, some k⟩, k, rfl, hr, rfl, rfl, fun _ _ => rfl⟩

/-- What the loop of `writei` answers and leaves: how far it came, and why no further. -/
structure Written (E : Env) (sb : Superblock) (s : State) (ip : Slot) (ino : Nat → Dinode) (src : Src)
    (off n tot : Nat) (r : Nat × Nat) (disk : Disk) (d : Dinode) (data : Bytes) (stray : Nat) :
    Prop where
  writes : Writes sb ino (s.ident ip).inum s.disk data off (r.2 + stray) d disk
  le : tot ≤ r.1
  most : r.1 + stray ≤ n
  at_ : r.2 = off + (r.1 - tot)
  gives : ∀ x, off ≤ x → x < r.2 → src.Gives E (tot + (x - off)) (data x)
  why : (r.1 = n ∧ stray = 0) ∨
    (stray = 0 ∧ mapped disk d (r.2 / BSIZE) = 0 ∧ ∀ x, x < sb.size → used sb disk x = true) ∨
    src.Faults E r.1 (min (n - r.1) (BSIZE - r.2 % BSIZE)) stray fun j => data (r.2 + j)
  stop : r.1 < n → r.1 = tot ∨ r.2 % BSIZE = 0

theorem Written.none (hgrow : Grows sb ino (s.ident ip).inum s.disk d disk) (htot : tot ≤ n)
    (hwhy : tot < n → mapped disk d (off / BSIZE) = 0 ∧ ∀ x, x < sb.size → used sb disk x = true) :
    Written E sb s ip ino src off n tot (tot, off) disk d (Bytes.fill 0) 0 where
  writes := hgrow.writes
  le := le_rfl
  most := htot
  at_ := by simp
  gives x h₁ h₂ := absurd h₁ (Nat.not_le_of_lt h₂)
  why := by
    rcases Nat.lt_or_ge tot n with h | h
    · exact .inr (.inl ⟨rfl, hwhy h⟩)
    · exact .inl ⟨Nat.le_antisymm htot h, rfl⟩
  stop _ := .inl rfl

theorem Written.cons {d' : Dinode} {r : Nat × Nat}
    (hw : Writes sb ino (s.ident ip).inum s.disk data off (off + m) d disk)
    (hgives : ∀ k, k < m → src.Gives E (tot + k) (data (off + k))) {stray : Nat}
    (h : Written E sb (s.put disk ip d) ip (update ino (s.ident ip).inum d) src (off + m) n
      (tot + m) r disk' d' data' stray) (hend : r.2 + stray ≤ MAXFILE * BSIZE)
    (hm : m = min (n - tot) (BSIZE - off % BSIZE)) : Written E sb s ip ino src off n tot r disk' d'
      (fun x => if x < off + m then data x else data' x) stray := by
  have hle := h.le
  have hat := h.at_
  refine ⟨?_, by omega, h.most, by omega, fun x h₁ h₂ => ?_, ?_, fun hlt => .inr ?_⟩
  · refine (hw.congr fun x _ hx => if_pos hx).trans
      (h.writes.congr fun x hx _ => if_neg (by omega)) (by omega) (by omega) hend
  · by_cases hx : x < off + m
    · rw [if_pos hx]
      have hk := hgives (x - off) (by omega)
      rwa [show off + (x - off) = x by omega] at hk
    · rw [if_neg hx]
      have hk := h.gives x (by omega) h₂
      rwa [show tot + m + (x - (off + m)) = tot + (x - off) by omega] at hk
  · refine h.why.imp_right (Or.imp_right ?_)
    rintro ⟨a, c, k, hsrc, hcopy, hfault, hstray, hdata⟩
    refine ⟨a, c, k, hsrc, hcopy, hfault, hstray, fun j hj => (if_neg ?_).trans (hdata j hj)⟩
    omega
  · rcases h.stop hlt with hr | hr
    · -- no more than this block, which is then full
      have hmod := mod_BSIZE_lt off
      have hfull : m = BSIZE - off % BSIZE := by omega
      have hd := Nat.div_add_mod off BSIZE
      rw [hat, hr, Nat.sub_self, Nat.add_zero,
        show off + m = BSIZE * (off / BSIZE + 1) by rw [Nat.mul_add]; omega]
      exact Nat.mul_mod_right _ _
    · exact hr

theorem Editing.does_writeiFrom (h : Editing sb s ip ino) (hT : s.InTrans) (htot : tot ≤ n)
    (hend : off + (n - tot) ≤ MAXFILE * BSIZE) (hfuel : n - tot ≤ fuel) :
    Does E p (writeiFrom sb ip src n fuel tot off) (fun r s' => ∃ disk d data stray,
      s' = s.put disk ip d ∧ Written E sb s ip ino src off n tot r disk d data stray) s := by
  induction fuel generalizing s ino tot off with
  | zero =>
    exact ⟨_, _, _, _, (put_self h.node).symm, .none (.refl h.wf h.fits) htot fun hlt => by omega⟩
  | succ fuel ih =>
    unfold writeiFrom
    by_cases hlt : tot < n
    · rw [if_pos hlt]
      have hoff : off < MAXFILE * BSIZE := by omega
      have hbn : off / BSIZE < MAXFILE := Nat.div_lt_of_lt_mul (by rwa [Nat.mul_comm] at hoff)
      have hmod := mod_BSIZE_lt off
      refine (h.does_bmap hT hbn).call ?_
      rintro a s' ⟨d, disk, rfl, hgrow, hmap, hfull, -⟩
      by_cases ha : a = 0
      · rw [if_pos ha]
        exact ⟨disk, d, _, _, rfl, .none hgrow htot fun _ => ⟨hmap.trans ha, hfull ha⟩⟩
      · rw [if_neg ha]
        have hedit := h.of_grows hgrow
        obtain rfl := hmap
        refine does_bind.2 (does_bread (hedit.bufs _) ?_)
        dsimp only
        have hrel : ((s.put disk ip d).setBuf (mapped disk d (off / BSIZE)) (some p)).buf
            (mapped disk d (off / BSIZE)) = some p := update_self ..
        refine does_bind.2 (does_eitherCopyin (fun bs hbs => ?_) fun bs k hfault => ?_)
        · dsimp only
          refine does_bind.2 (does_bstore ?_)
          refine does_bind.2 (does_logWrite hT ?_)
          refine does_bind.2 (does_brelse hrel ?_)
          rw [rewritten _ _ _ (hedit.bufs _)]
          have hw := hgrow.writeBlock h.geometry h.live (Nat.min_le_right (n - tot) _) hoff ha bs
          have hmove := h.of_put hw.wf (by rw [hw.same]) hw.fits
          refine (ih hmove hT (by omega) (by omega) (by omega)).mono ?_
          rintro r s' ⟨disk', d', data', stray, rfl, hr⟩
          have hle := hr.le
          have hmost := hr.most
          have hat := hr.at_
          refine ⟨disk', d', _, stray, put_put _ _ _ _ _ _, hr.cons hw (fun k hk => ?_) (by omega) rfl⟩
          simpa using hbs k hk
        · dsimp only
          refine does_bind.2 (does_bstore ?_)
          refine does_bind.2 (does_brelse hrel ?_)
          rw [rewritten _ _ _ (hedit.bufs _)]
          have hm : min k (min (n - tot) (BSIZE - off % BSIZE)) ≤ BSIZE - off % BSIZE := by omega
          have hw := hgrow.writeBlock h.geometry h.live hm hoff ha bs
          refine ⟨_, d, _, min k (min (n - tot) (BSIZE - off % BSIZE)), rfl, hw, le_rfl,
            by omega, by simp, fun x h₁ h₂ => absurd h₁ (Nat.not_le_of_lt h₂), .inr (.inr ?_),
            fun _ => .inl rfl⟩
          simpa using hfault
    · rw [if_neg hlt]
      exact ⟨_, _, _, _, (put_self h.node).symm, .none (.refl h.wf h.fits) htot fun hlt => by omega⟩

end

end ZeptOS.Fs
