import ZeptOS.Fs.Listed
import ZeptOS.Fs.Seq

/-!
# Allocating blocks

What `balloc`, `bfree` and `bmap` do when a process runs alone. `balloc` finds the first free block;
`bmap` answers the block of a file, and if there is none it adds one (`Grows`), or only the indirect block
for it, or nothing when the disk is full.
-/

namespace ZeptOS.Fs

open Lib Lib.Code Function

variable {Q : Unit → State → Prop} {n : Dinode}
variable {s : State} {ip : Slot} {m bn : Nat} {ino : Nat → Dinode}

variable {disk : Disk}

section

variable {E : Env} {p : Proc} {sb : Superblock} {b : Nat}

/-! ## One buffer at a time -/

theorem buf_back (hb : s.buf b = none) : update (update s.buf b (some p)) b none = s.buf := by
  rw [update_idem, ← hb, update_eq_self]

theorem rewritten_disk (s : State) (disk : Disk) (b : Nat) (data : Block) (hb : s.buf b = none) :
    ({ s.setBuf b (some p) with disk }.setDisk b data).setBuf b none =
      { s with disk := update disk b data } := by
  simp only [State.setBuf, State.setDisk, buf_back hb]

theorem rewritten (s : State) (b : Nat) (data : Block) (hb : s.buf b = none) :
    ((s.setBuf b (some p)).setDisk b data).setBuf b none = s.setDisk b data :=
  rewritten_disk s s.disk b data hb

theorem does_bzero (hT : s.InTrans) (hb : s.buf b = none)
    (hq : Q () (s.setDisk b (Bytes.fill 0))) : Does E p (bzero b) Q s := by
  refine does_bind.2 (does_bread hb ?_)
  refine does_bind.2 (does_bstore ?_)
  refine does_bind.2 (does_logWrite hT ?_)
  refine does_brelse (update_self ..) ?_
  rwa [rewritten s b _ hb]

/-! ## `balloc` -/

theorem freeBit_spec (data : Block) (n bi : Nat) : match freeBit data n bi with
    | none => ∀ j, bi ≤ j → j < bi + n → bit data j = true
    | some c => bi ≤ c ∧ c < bi + n ∧ bit data c = false ∧ ∀ j, bi ≤ j → j < c → bit data j = true := by
  induction n generalizing bi with
  | zero => exact fun j h₁ h₂ => absurd h₂ (by omega)
  | succ n ih =>
    unfold freeBit
    by_cases hbit : bit data bi = true
    · rw [if_pos hbit]
      have hrec := ih (bi + 1)
      have hfirst {j : Nat} (h₁ : bi ≤ j) (h₂ : ¬bi + 1 ≤ j) : bit data j = true := by
        obtain rfl : j = bi := by omega
        exact hbit
      split at hrec
      · intro j h₁ h₂
        by_cases hj : bi + 1 ≤ j
        · exact hrec j hj (by omega)
        · exact hfirst h₁ hj
      · obtain ⟨h₁, h₂, h₃, h₄⟩ := hrec
        refine ⟨by omega, by omega, h₃, fun j hj₁ hj₂ => ?_⟩
        by_cases hj : bi + 1 ≤ j
        · exact h₄ j hj hj₂
        · exact hfirst hj₁ hj
    · rw [if_neg hbit]
      exact ⟨le_rfl, by omega, by simpa using hbit, fun j h₁ h₂ => absurd h₂ (by omega)⟩

/-- What `balloc` answers and leaves: the first free block, marked and cleared, or 0. -/
def Allocates (sb : Superblock) (s : State) (a : Nat) (s' : State) : Prop :=
  (a = 0 ∧ s' = s ∧ ∀ x, x < sb.size → used sb s.disk x = true) ∨
  (a < sb.size ∧ used sb s.disk a = false ∧ (∀ x, x < a → used sb s.disk x = true) ∧
    s' = { s with disk := grab sb s.disk a })

theorem used_in_block {x : Nat} (disk : Disk) (h₁ : BPB * m ≤ x) (h₂ : x < BPB * m + BPB) :
    used sb disk x = bit (disk (sb.bblock (BPB * m))) (x - BPB * m) := by
  have hdiv : x / BPB = m := by
    refine Nat.div_eq_of_lt_le ?_ ?_ <;> rw [Nat.mul_comm] <;> [exact h₁; skip]
    rw [Nat.mul_add, Nat.mul_one]
    exact h₂
  have hmod : x % BPB = x - BPB * m := by rw [Nat.mod_def, hdiv]
  unfold used Superblock.bblock
  rw [hdiv, hmod, Nat.mul_div_cancel_left _ (by decide)]

theorem does_ballocFrom (hT : s.InTrans) (hmap : ∀ x, x < sb.size → s.buf (sb.bblock x) = none)
    (hfree : ∀ x, x < sb.size → used sb s.disk x = false → s.buf x = none) {fuel : Nat}
    (hfuel : sb.size / BPB + 1 ≤ fuel + m)
    (hprev : ∀ x, x < BPB * m → x < sb.size → used sb s.disk x = true) :
    Does E p (ballocFrom sb fuel (BPB * m)) (Allocates sb s) s := by
  induction fuel generalizing m with
  | zero =>
    unfold ballocFrom
    refine .inl ⟨rfl, rfl, fun x hx => hprev x ?_ hx⟩
    have hd := Nat.div_add_mod sb.size BPB
    have hm := Nat.mod_lt sb.size (show BPB > 0 by decide)
    have hle : BPB * (sb.size / BPB + 1) ≤ BPB * m := Nat.mul_le_mul_left _ (by omega)
    rw [Nat.mul_add, Nat.mul_one] at hle
    omega
  | succ fuel ih =>
    unfold ballocFrom
    by_cases hb : BPB * m < sb.size
    · rw [if_pos hb]
      refine does_bind.2 (does_bread (hmap _ hb) ?_)
      have hspec := freeBit_spec (s.disk (sb.bblock (BPB * m))) (min BPB (sb.size - BPB * m)) 0
      have hbit {j : Nat} (hj : j < BPB) : used sb s.disk (BPB * m + j) =
          bit (s.disk (sb.bblock (BPB * m))) j := by
        rw [used_in_block s.disk (Nat.le_add_right _ _) (by omega), Nat.add_sub_cancel_left]
      cases hc : freeBit (s.disk (sb.bblock (BPB * m))) (min BPB (sb.size - BPB * m)) 0 with
      | none =>
        rw [hc] at hspec
        have hbuf : (s.setBuf (sb.bblock (BPB * m)) (some p)).buf (sb.bblock (BPB * m)) = some p :=
          update_self ..
        refine does_bind.2 (does_brelse hbuf ?_)
        rw [setBuf_setBuf, setBuf_none (hmap _ hb), show BPB * m + BPB = BPB * (m + 1) by ring]
        refine ih (by omega) fun x hx hxs => ?_
        by_cases hxm : x < BPB * m
        · exact hprev x hxm hxs
        · obtain ⟨j, rfl⟩ := Nat.exists_eq_add_of_le (Nat.le_of_not_lt hxm)
          rw [Nat.mul_add, Nat.mul_one] at hx
          rw [hbit (by omega)]
          exact hspec j (Nat.zero_le _) (by omega)
      | some c =>
        rw [hc] at hspec
        obtain ⟨-, hlt, hclear, hset⟩ := hspec
        have hcb : c < BPB := by omega
        have hcs : BPB * m + c < sb.size := by omega
        have hu : used sb s.disk (BPB * m + c) = false := by rw [hbit hcb, hclear]
        have hbuf : (s.setBuf (sb.bblock (BPB * m)) (some p)).buf (sb.bblock (BPB * m)) = some p :=
          update_self ..
        refine does_bind.2 (does_bstore ?_)
        refine does_bind.2 (does_logWrite hT ?_)
        refine does_bind.2 (does_brelse hbuf ?_)
        rw [rewritten s _ _ (hmap _ hb)]
        refine does_bind.2 (does_bzero hT (hfree _ hcs hu) ?_)
        refine .inr ⟨hcs, hu, fun x hx => ?_, ?_⟩
        · by_cases hxm : x < BPB * m
          · exact hprev x hxm (by omega)
          · obtain ⟨j, rfl⟩ := Nat.exists_eq_add_of_le (Nat.le_of_not_lt hxm)
            rw [hbit (by omega)]
            exact hset j (Nat.zero_le _) (by omega)
        · have hblock : sb.bblock (BPB * m + c) = sb.bblock (BPB * m) := by
            unfold Superblock.bblock
            rw [Nat.mul_add_div (by decide), Nat.div_eq_of_lt hcb,
              Nat.mul_div_cancel_left _ (by decide), Nat.add_zero]
          have hplace : (BPB * m + c) % BPB = c := by
            rw [Nat.mul_add_mod, Nat.mod_eq_of_lt hcb]
          simp only [grab, mark, hblock, hplace, State.setDisk]
    · rw [if_neg hb]
      exact .inl ⟨rfl, rfl, fun x hx => hprev x (by omega) hx⟩

/-- **`balloc` finds the first free block.** -/
theorem does_balloc (hT : s.InTrans) (hmap : ∀ x, x < sb.size → s.buf (sb.bblock x) = none)
    (hfree : ∀ x, x < sb.size → used sb s.disk x = false → s.buf x = none) :
    Does E p (balloc sb) (Allocates sb s) s := by
  have h : Does E p (ballocFrom sb (sb.size / BPB + 1) (BPB * 0)) (Allocates sb s) s :=
    does_ballocFrom hT hmap hfree le_rfl fun x hx => absurd hx (by simp)
  rwa [Nat.mul_zero] at h

/-- **`bfree`** of a block that is marked. -/
theorem does_bfree (hT : s.InTrans)
    (hbuf : s.buf (sb.bblock b) = none) (hu : used sb s.disk b = true)
    (hq : Q () { s with disk := unmark sb s.disk b }) : Does E p (bfree sb b) Q s := by
  refine does_bind.2 (does_bread hbuf ?_)
  dsimp only
  rw [if_neg (by rw [show bit (s.disk (sb.bblock b)) (b % BPB) = true from hu]; decide)]
  refine does_bind.2 (does_bstore ?_)
  refine does_bind.2 (does_logWrite hT ?_)
  refine does_brelse (update_self ..) ?_
  rwa [rewritten s _ _ hbuf]

/-! ## `bmap` -/

/-- The state with another disk, and another content of the entry `ip`. -/
def State.put (s : State) (disk : Disk) (ip : Slot) (n : Dinode) : State :=
  { s with disk, node := Function.update s.node ip ⟨true, n⟩ }

theorem put_put (s : State) (disk disk' : Disk) (ip : Slot) (n n' : Dinode) :
    (s.put disk ip n).put disk' ip n' = s.put disk' ip n' := by
  simp [State.put]

theorem put_of_node (h : s.node ip = ⟨true, n⟩) (disk : Disk) :
    s.put disk ip n = { s with disk } := by
  rw [State.put, ← h, update_eq_self]

theorem put_self (h : s.node ip = ⟨true, n⟩) : s.put s.disk ip n = s :=
  put_of_node h s.disk

theorem put_node (s : State) (disk : Disk) (ip : Slot) (n : Dinode) :
    (s.put disk ip n).node ip = ⟨true, n⟩ := update_self ..

theorem does_modifyNode_put {g : Dinode → Dinode} (hq : Q () (s.put disk ip (g n))) :
    Does E p (modifyNode ip g) Q (s.put disk ip n) := by
  refine does_modifyNode ?_
  rw [put_node]
  have hset : (s.put disk ip n).setNode ip ⟨true, g n⟩ = s.put disk ip (g n) := by
    simp [State.put, State.setNode]
  rwa [hset]

/-- Entry `ip` has inode `i`, and `ino` is the table of inodes with what the entry says of it. -/
structure Editing (sb : Superblock) (s : State) (ip : Slot) (ino : Nat → Dinode) : Prop where
  geometry : sb.Geometry
  bufs : ∀ b, s.buf b = none
  node : s.node ip = ⟨true, ino (s.ident ip).inum⟩
  live : Live sb ino (s.ident ip).inum
  fits : (ino (s.ident ip).inum).Fits
  wf : WellFormed sb ino s.disk

/-- What `bmap` answers and leaves, for the `bn`-th block. -/
def Maps (sb : Superblock) (s : State) (ip : Slot) (ino : Nat → Dinode) (bn a : Nat) (s' : State) :
    Prop :=
  ∃ n disk, s' = s.put disk ip n ∧ Grows sb ino (s.ident ip).inum s.disk n disk ∧
    mapped disk n bn = a ∧ (a = 0 → ∀ x, x < sb.size → used sb disk x = true) ∧
    ∀ l, l < NPLACE → l ≠ NDIRECT → l ≠ place bn →
      entry disk n l = entry s.disk (ino (s.ident ip).inum) l

theorem Maps.of_grows {a : Nat} {s' : State} (hgrow : Grows sb ino (s.ident ip).inum s.disk n disk)
    (hrest : ∀ l, l < NPLACE → l ≠ NDIRECT → entry disk n l = entry s.disk (ino (s.ident ip).inum) l)
    (h : Maps sb (s.put disk ip n) ip (update ino (s.ident ip).inum n) bn a s') :
    Maps sb s ip ino bn a s' := by
  obtain ⟨n', disk', rfl, hgrow', hmap, hfull, hrest'⟩ := h
  refine ⟨n', disk', put_put _ _ _ _ _ _, hgrow.trans hgrow', hmap, hfull, fun l hl hi hp => ?_⟩
  have hl' : entry disk' n' l = entry disk (update ino (s.ident ip).inum n (s.ident ip).inum) l :=
    hrest' l hl hi hp
  rw [hl', update_self, hrest l hl hi]

section Bmap

variable (h : Editing sb s ip ino)
include h

theorem Editing.maps_self (bn : Nat) (h0 : mapped s.disk (ino (s.ident ip).inum) bn ≠ 0) :
    Maps sb s ip ino bn (mapped s.disk (ino (s.ident ip).inum) bn) s :=
  ⟨_, _, (put_self h.node).symm, .refl h.wf h.fits, rfl, fun he => absurd he h0,
    fun _ _ _ _ => rfl⟩

theorem Editing.of_put (hwf : WellFormed sb (update ino (s.ident ip).inum n) disk)
    (htype : n.type = (ino (s.ident ip).inum).type) (hfits : n.Fits) :
    Editing sb (s.put disk ip n) ip (update ino (s.ident ip).inum n) where
  geometry := h.geometry
  bufs := h.bufs
  node := by simp [State.put]
  live := by
    refine ⟨h.live.1, ?_⟩
    show (update ino _ n (s.ident ip).inum).type ≠ 0
    rw [update_self, htype]
    exact h.live.2
  fits := by
    show (update ino _ n (s.ident ip).inum).Fits
    rw [update_self]
    exact hfits
  wf := hwf

theorem Editing.of_grows (hgrow : Grows sb ino (s.ident ip).inum s.disk n disk) :
    Editing sb (s.put disk ip n) ip (update ino (s.ident ip).inum n) :=
  h.of_put hgrow.wf (by rw [hgrow.same]) hgrow.fits

theorem Editing.maps_full (h0 : mapped s.disk (ino (s.ident ip).inum) bn = 0)
    (hfull : ∀ x, x < sb.size → used sb s.disk x = true) : Maps sb s ip ino bn 0 s :=
  ⟨_, _, (put_self h.node).symm, .refl h.wf h.fits, h0, fun _ => hfull, fun _ _ _ _ => rfl⟩

/-- No buffer of the free map, and none of a free block, is in the hands of who has a block of the
inode. -/
theorem Editing.allocates (hT : s.InTrans) {k : Nat} (hk : k < NPLACE)
    (h0 : entry s.disk (ino (s.ident ip).inum) k ≠ 0) :
    Does E p (balloc sb) (Allocates sb (s.setBuf (entry s.disk (ino (s.ident ip).inum) k) (some p)))
      (s.setBuf (entry s.disk (ino (s.ident ip).inum) k) (some p)) := by
  have hlo : sb.datastart ≤ entry s.disk (ino (s.ident ip).inum) k :=
    (h.wf.owned.area (_, k) ⟨h.live, hk⟩ h0).1
  refine does_balloc hT (fun x hx => ?_) fun x hx hu => ?_
  · have hlt := h.geometry.bitmap x hx
    exact (update_of_ne (by omega) _ _).trans (h.bufs _)
  · have hne := (h.wf.owned.unmarked hx hu).2 (_, k) ⟨h.live, hk⟩
    exact (update_of_ne (Ne.symm hne) _ _).trans (h.bufs x)

theorem Editing.does_bmapIndirect (hT : s.InTrans) {j : Nat} (hj : j < NINDIRECT)
    (hi0 : (ino (s.ident ip).inum).addrs NDIRECT ≠ 0) :
    Does E p (bmapIndirect sb ((ino (s.ident ip).inum).addrs NDIRECT) j)
      (Maps sb s ip ino (NDIRECT + j)) s := by
  have hind : entry s.disk (ino (s.ident ip).inum) NDIRECT = (ino (s.ident ip).inum).addrs NDIRECT :=
    entry_direct le_rfl
  have hmap (disk : Disk) : mapped disk (ino (s.ident ip).inum) (NDIRECT + j) =
      word (disk ((ino (s.ident ip).inum).addrs NDIRECT)) j := by
    rw [mapped, place, if_neg (by omega), show NDIRECT + j + 1 = NDIRECT + 1 + j by omega,
      entry_word hi0]
  have hbuf : (s.setBuf ((ino (s.ident ip).inum).addrs NDIRECT) (some p)).buf
      ((ino (s.ident ip).inum).addrs NDIRECT) = some p := update_self ..
  unfold bmapIndirect
  refine does_bind.2 (does_bread (h.bufs _) ?_)
  dsimp only
  by_cases hw0 : word (s.disk ((ino (s.ident ip).inum).addrs NDIRECT)) j = 0
  · rw [if_pos hw0]
    have halloc := h.allocates (E := E) (p := p) hT ndirect_lt (by rwa [hind])
    rw [hind] at halloc
    refine halloc.call ?_
    rintro a s' (⟨rfl, rfl, hfull⟩ | ⟨ha, hu, -, rfl⟩)
    · -- no free block
      refine does_bind.2 (does_when (fun h0 => absurd rfl h0) fun _ => ?_)
      refine does_bind.2 (does_brelse hbuf ?_)
      rw [setBuf_setBuf, setBuf_none (h.bufs _)]
      exact h.maps_full (by rwa [hmap]) hfull
    · have hlo := (h.wf.owned.unmarked ha hu).1
      have ha0 : a ≠ 0 := Nat.ne_of_gt (h.geometry.pos.trans_le hlo)
      refine does_bind.2 (does_when (fun _ => ?_) fun h0 => absurd ha0 h0)
      refine does_bind.2 (does_bstore (does_logWrite hT ?_))
      refine does_bind.2 (does_brelse hbuf ?_)
      refine ⟨_, _, ?_, h.wf.grabWord h.geometry h.live h.fits hj hi0 hw0 ha hu, ?_,
        fun he => absurd he ha0, fun l hl _ hp => ?_⟩
      · rw [put_of_node h.node]
        exact rewritten_disk s _ _ _ (h.bufs _)
      · rw [hmap, update_self, word_setWord_self (ha.trans h.geometry.size_lt)]
      · rw [entry_setWord hi0 (ha.trans h.geometry.size_lt) hl, if_neg]
        rwa [place, if_neg (by omega), show NDIRECT + j + 1 = NDIRECT + 1 + j by omega] at hp
  · rw [if_neg hw0]
    refine does_bind.2 (does_brelse hbuf ?_)
    rw [setBuf_setBuf, setBuf_none (h.bufs _)]
    have hm := h.maps_self (NDIRECT + j) (by rwa [hmap])
    rwa [hmap] at hm

/-- **`bmap`** of a block number that a file can have. -/
theorem Editing.does_bmap (hT : s.InTrans) (hbn : bn < MAXFILE) :
    Does E p (bmap sb ip bn) (Maps sb s ip ino bn) s := by
  have hnode : (s.node ip).d = ino (s.ident ip).inum := by rw [h.node]
  have hballoc : Does E p (balloc sb) (Allocates sb s) s :=
    does_balloc hT (fun _ _ => h.bufs _) fun _ _ _ => h.bufs _
  have hset (k a : Nat) : { s with disk := grab sb s.disk a }.setNode ip
      { s.node ip with d := (s.node ip).d.setAddr k a } =
      s.put (grab sb s.disk a) ip ((ino (s.ident ip).inum).setAddr k a) := by
    rw [State.put, h.node]
    rfl
  unfold bmap
  by_cases hd : bn < NDIRECT
  · rw [if_pos hd]
    have hmap (disk : Disk) (d : Dinode) : mapped disk d bn = d.addrs bn := by
      rw [mapped, place, if_pos hd, entry_direct (Nat.le_of_lt hd)]
    refine does_bind.2 (does_node ?_)
    rw [hnode]
    by_cases h0 : (ino (s.ident ip).inum).addrs bn = 0
    · rw [if_pos h0]
      refine hballoc.call ?_
      rintro a s' (⟨rfl, rfl, hfull⟩ | ⟨ha, hu, -, rfl⟩)
      · rw [if_pos rfl]
        exact h.maps_full (by rwa [hmap]) hfull
      · have hlo := (h.wf.owned.unmarked ha hu).1
        have ha0 : a ≠ 0 := Nat.ne_of_gt (h.geometry.pos.trans_le hlo)
        rw [if_neg ha0]
        refine does_bind.2 (does_modifyNode ?_)
        refine ⟨_, _, hset bn a, h.wf.grabAddr h.geometry h.live h.fits (Nat.le_of_lt hd) h0 ha hu,
          ?_, fun he => absurd he ha0, fun l hl _ hp => ?_⟩
        · rw [hmap, Dinode.setAddr_self]
        · rw [place, if_pos hd] at hp
          rw [h.wf.entry_grabAddr h.geometry h.live (Nat.le_of_lt hd) h0 ha hu hl, if_neg hp]
    · rw [if_neg h0]
      have hm := h.maps_self bn (by rwa [hmap])
      rwa [hmap] at hm
  · have hlt : bn < NDIRECT + NINDIRECT := hbn
    obtain ⟨j, rfl⟩ := Nat.exists_eq_add_of_le (Nat.le_of_not_lt hd)
    have hj : j < NINDIRECT := Nat.lt_of_add_lt_add_left hlt
    rw [if_neg hd, Nat.add_sub_cancel_left, if_pos hj]
    refine does_bind.2 (does_node ?_)
    rw [hnode]
    by_cases h0 : (ino (s.ident ip).inum).addrs NDIRECT = 0
    · rw [if_pos h0]
      refine hballoc.call ?_
      rintro a s' (⟨rfl, rfl, hfull⟩ | ⟨ha, hu, -, rfl⟩)
      · rw [if_pos rfl]
        refine h.maps_full ?_ hfull
        rw [mapped, place, if_neg hd, show NDIRECT + j + 1 = NDIRECT + 1 + j by omega, entry_noWord h0]
      · -- the indirect block is new, and stays if there is no block for its first word
        have hlo := (h.wf.owned.unmarked ha hu).1
        have ha0 : a ≠ 0 := Nat.ne_of_gt (h.geometry.pos.trans_le hlo)
        have hgrow := h.wf.grabAddr h.geometry h.live h.fits le_rfl h0 ha hu
        rw [if_neg ha0]
        refine does_bind.2 (does_modifyNode ?_)
        have hind : (update ino (s.ident ip).inum ((ino (s.ident ip).inum).setAddr NDIRECT a)
            (s.ident ip).inum).addrs NDIRECT = a := by
          rw [update_self, Dinode.setAddr_self]
        have hword := (h.of_grows hgrow).does_bmapIndirect (E := E) (p := p) hT hj
          (by rwa [show ((s.put _ ip _).ident ip).inum = (s.ident ip).inum from rfl, hind])
        rw [show ((s.put _ ip _).ident ip).inum = (s.ident ip).inum from rfl, hind] at hword
        refine cast (congrArg (Does E p _ _) (hset NDIRECT a).symm) ?_
        refine hword.mono fun a' s' hm => hm.of_grows hgrow fun l hl hi => ?_
        rw [h.wf.entry_grabAddr h.geometry h.live le_rfl h0 ha hu hl, if_neg hi]
    · rw [if_neg h0]
      exact h.does_bmapIndirect hT hj h0

end Bmap

/-- **`bmap` of a block that is there** answers it, in a transaction or not. -/
theorem does_bmap_mapped {Q : Nat → State → Prop} (hbufs : ∀ b, s.buf b = none) (hbn : bn < MAXFILE)
    (h0 : mapped s.disk (s.node ip).d bn ≠ 0) (hq : Q (mapped s.disk (s.node ip).d bn) s) :
    Does E p (bmap sb ip bn) Q s := by
  unfold bmap
  by_cases hd : bn < NDIRECT
  · rw [mapped, place, if_pos hd, entry_direct (Nat.le_of_lt hd)] at h0 hq
    rw [if_pos hd]
    refine does_bind.2 (does_node ?_)
    rw [if_neg h0]
    exact hq
  · have hlt : bn < NDIRECT + NINDIRECT := hbn
    obtain ⟨j, rfl⟩ := Nat.exists_eq_add_of_le (Nat.le_of_not_lt hd)
    rw [mapped, place, if_neg hd, show NDIRECT + j + 1 = NDIRECT + 1 + j by omega] at h0 hq
    have hi0 : (s.node ip).d.addrs NDIRECT ≠ 0 := fun he => h0 (entry_noWord he)
    rw [entry_word hi0] at h0 hq
    rw [if_neg hd, Nat.add_sub_cancel_left, if_pos (Nat.lt_of_add_lt_add_left hlt)]
    refine does_bind.2 (does_node ?_)
    rw [if_neg hi0]
    refine does_bind.2 (does_bread (hbufs _) ?_)
    dsimp only
    rw [if_neg h0]
    refine does_bind.2 (does_brelse (update_self ..) ?_)
    rw [setBuf_setBuf, setBuf_none (hbufs _)]
    exact hq

end

end ZeptOS.Fs
