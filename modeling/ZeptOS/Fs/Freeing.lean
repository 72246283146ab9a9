import ZeptOS.Fs.Content

/-!
# Giving blocks back

`itrunc` frees the direct blocks one by one and forgets each, then the blocks that the indirect block
lists, which it does not clear, and then the indirect block. In between, some places of the inode own
their block no longer, whatever they still hold: `Freed` says of which places that is so.
-/

namespace ZeptOS.Fs

open Lib Lib.Code Function

variable {sb : Superblock} {k n : Nat} {ino : Nat → Dinode} {d : Dinode} {disk : Disk}

/-- The places `gone` of inode `i` have given back what they held. -/
structure Freed (sb : Superblock) (ino : Nat → Dinode) (i : Nat) (disk : Disk) (gone : Nat → Prop)
    (disk' : Disk) : Prop where
  owned : Owned sb.datastart sb.size
    (fun x : Nat × Nat => (Live sb ino x.1 ∧ x.2 < NPLACE) ∧ ¬(x.1 = i ∧ gone x.2))
    (fun x => entry disk (ino x.1) x.2) (used sb disk')
  rest : ∀ b, b < sb.bmapstart ∨ sb.datastart ≤ b → disk' b = disk b

section Freed

variable {i : Nat} {disk' : Disk} {gone gone' : Nat → Prop}

theorem WellFormed.freed (hw : WellFormed sb ino disk) :
    Freed sb ino i disk (fun _ => False) disk :=
  ⟨hw.owned.congr (fun x => by simp) (fun _ _ => rfl) fun _ _ => rfl, fun _ _ => rfl⟩

theorem Freed.congr (h : Freed sb ino i disk gone disk') (hg : ∀ l, l < NPLACE → (gone' l ↔ gone l)) :
    Freed sb ino i disk gone' disk' := by
  refine ⟨h.owned.congr (fun x => ?_) (fun _ _ => rfl) fun _ _ => rfl, h.rest⟩
  by_cases hx : x.2 < NPLACE
  · rw [hg _ hx]
  · simp [hx]

theorem Freed.more (h : Freed sb ino i disk gone disk') (hsub : ∀ l, gone l → gone' l)
    (h0 : ∀ l, l < NPLACE → gone' l → ¬gone l → entry disk (ino i) l = 0) :
    Freed sb ino i disk gone' disk' := by
  refine ⟨h.owned.drop (S := fun x => x.1 = i ∧ gone' x.2) (fun x hx => ?_) (fun x hx hS => ?_)
    fun b _ => ?_, h.rest⟩
  · exact ⟨⟨hx.1, fun hg => hx.2 ⟨hg.1, hsub _ hg.2⟩⟩, fun hS => absurd hS hx.2, fun _ => rfl⟩
  · exact ⟨hx.1, hS⟩
  · refine ⟨fun hu => ⟨hu, ?_⟩, fun hu => hu.1⟩
    rintro ⟨⟨j, l⟩, hx, ⟨rfl, hg⟩, hne, -⟩
    exact hne (h0 l hx.1.2 hg fun hg' => hx.2 ⟨rfl, hg'⟩)

theorem Freed.marked (h : Freed sb ino i disk gone disk') (hl : Live sb ino i) (hk : k < NPLACE)
    (hg : ¬gone k) (h0 : entry disk (ino i) k ≠ 0) :
    used sb disk' (entry disk (ino i) k) = true ∧ entry disk (ino i) k < sb.size :=
  have hP : (Live sb ino i ∧ k < NPLACE) ∧ ¬(i = i ∧ gone k) := ⟨⟨hl, hk⟩, fun h => hg h.2⟩
  ⟨h.owned.marked (k := (i, k)) hP h0, (h.owned.area (i, k) hP h0).2⟩

theorem Freed.free (hgeo : sb.Geometry) (h : Freed sb ino i disk gone disk') (hl : Live sb ino i)
    (hk : k < NPLACE) (hg : ¬gone k) (h0 : entry disk (ino i) k ≠ 0) :
    Freed sb ino i disk (fun l => gone l ∨ l = k) (unmark sb disk' (entry disk (ino i) k)) := by
  have hP : (Live sb ino i ∧ k < NPLACE) ∧ ¬(i = i ∧ gone k) := ⟨⟨hl, hk⟩, fun h => hg h.2⟩
  refine ⟨h.owned.drop (S := fun x => x.1 = i ∧ x.2 = k) (fun x hx => ?_) (fun x hx hS => ?_)
    fun b _ => ?_, fun b hb => ?_⟩
  · refine ⟨⟨hx.1, fun hg => hx.2 ⟨hg.1, .inl hg.2⟩⟩, fun hS => ?_, fun _ => rfl⟩
    exact absurd ⟨hS.1, .inr hS.2⟩ hx.2
  · exact ⟨hx.1, fun hg => hg.2.elim (fun hg' => hx.2 ⟨hg.1, hg'⟩) fun hk => hS ⟨hg.1, hk⟩⟩
  · rw [used_unmark, Bool.and_eq_true, and_comm, Bool.not_eq_true', decide_eq_false_iff_not]
    refine and_congr_right fun _ => not_congr ⟨fun hb => ?_, ?_⟩
    · exact ⟨(i, k), hP, ⟨rfl, rfl⟩, h0, hb.symm⟩
    · rintro ⟨⟨j, l⟩, -, ⟨rfl, rfl⟩, -, hb⟩
      exact hb.symm
  · rw [unmark_apply hgeo (h.marked hl hk hg h0).2 hb, h.rest b hb]

/-- **All that the inode had is given back**, and it has no block any more. -/
theorem Freed.wf {n : Dinode} (h : Freed sb ino i disk gone disk') (hall : ∀ k, k < NPLACE → gone k)
    (hw : WellFormed sb ino disk) (hn : ∀ k, n.addrs k = 0) (hsize : n.size = 0) :
    WellFormed sb (update ino i n) disk' ∧ Kept sb ino i disk disk' := by
  have hempty (k : Nat) : entry disk' n k = 0 := by
    unfold entry
    rw [hn, hn, if_pos rfl, ite_self]
  have hother (j : Nat) (hj : j ≠ i) (hlj : Live sb ino j) : Untouched disk disk' (ino j) := by
    intro k hk h0
    exact h.rest _ (.inr (hw.owned.area (j, k) ⟨hlj, hk⟩ h0).1)
  have hlive {j : Nat} (hj : j ≠ i) : Live sb (update ino i n) j ↔ Live sb ino j := by
    unfold Live
    rw [update_of_ne hj]
  refine ⟨⟨h.owned.grow (fun x hx => ?_) (fun x hx hnot => ?_) fun _ _ => rfl, fun j hj => ?_,
    fun j bn hj hbn => ?_⟩, fun b hb => h.rest b (.inl hb), hother⟩
  · have hne : x.1 ≠ i := fun he => hx.2 ⟨he, hall _ hx.1.2⟩
    refine ⟨⟨(hlive hne).mpr hx.1.1, hx.1.2⟩, ?_⟩
    rw [update_of_ne hne, (hother _ hne hx.1.1).entry]
  · by_cases hxi : x.1 = i
    · rw [hxi, update_self, hempty]
    · exact absurd ⟨⟨(hlive hxi).mp hx.1, hx.2⟩, fun he => hxi he.1⟩ hnot
  · by_cases hji : j = i
    · rw [hji, update_self, hsize]
      exact Nat.zero_le _
    · rw [update_of_ne hji]
      exact hw.size j hj
  · by_cases hji : j = i
    · rw [hji, update_self, hsize] at hbn
      exact absurd hbn (Nat.not_lt_zero _)
    · rw [update_of_ne hji] at hbn ⊢
      rw [mapped, (hother j hji ((hlive hji).mp hj)).entry]
      exact hw.full j bn ((hlive hji).mp hj) hbn

end Freed

/-! ## `itrunc` -/

def cleared (d : Dinode) (k : Nat) : Dinode :=
  { d with addrs := fun l => if l < k then 0 else d.addrs l }

theorem cleared_zero (d : Dinode) : cleared d 0 = d := by
  simp [cleared]

theorem cleared_addrs_self (d : Dinode) (k : Nat) : (cleared d k).addrs k = d.addrs k :=
  if_neg (Nat.lt_irrefl k)

theorem setAddr_cleared (d : Dinode) (k : Nat) : (cleared d k).setAddr k 0 = cleared d (k + 1) := by
  refine Dinode.ext rfl rfl rfl rfl rfl (funext fun l => ?_)
  simp only [Dinode.setAddr, cleared]
  rcases Nat.lt_trichotomy l k with hl | rfl | hl
  · rw [update_of_ne (by omega), if_pos hl, if_pos (by omega)]
  · rw [update_self, if_pos (by omega)]
  · rw [update_of_ne (by omega), if_neg (by omega), if_neg (by omega)]

theorem cleared_succ_of_zero (h : d.addrs k = 0) : cleared d (k + 1) = cleared d k := by
  unfold cleared
  congr 1
  funext l
  by_cases hl : l = k
  · rw [hl, if_pos (by omega), if_neg (by omega), h]
  · congr 1
    exact propext (by omega)

def emptied (d : Dinode) : Dinode := { d with size := 0, addrs := fun _ => 0 }

section

variable {E : Env} {p : Proc} {s : State} {ip : Slot} (h : Editing sb s ip ino)
include h

variable {Q : Unit → State → Prop}

theorem Editing.does_itruncDirect (hT : s.InTrans) (hn : k + n = NDIRECT)
    (hf : Freed sb ino (s.ident ip).inum s.disk (fun l => l < k) disk)
    (hq : ∀ disk', Freed sb ino (s.ident ip).inum s.disk (fun l => l < NDIRECT) disk' →
      Q () (s.put disk' ip (cleared (ino (s.ident ip).inum) NDIRECT))) :
    Does E p (itruncDirect sb ip n k) Q (s.put disk ip (cleared (ino (s.ident ip).inum) k)) := by
  induction n generalizing k disk with
  | zero =>
    obtain rfl : k = NDIRECT := hn
    exact hq disk hf
  | succ n ih =>
    have hk : k < NPLACE := Nat.lt_of_lt_of_le (show k < NDIRECT by omega) (by decide)
    have haddr : entry s.disk (ino (s.ident ip).inum) k = (ino (s.ident ip).inum).addrs k :=
      entry_direct (by omega)
    have hnode : ((s.put disk ip (cleared (ino (s.ident ip).inum) k)).node ip) =
        ⟨true, cleared (ino (s.ident ip).inum) k⟩ := update_self ..
    have hgone (l : Nat) (_ : l < NPLACE) : l < k + 1 ↔ l < k ∨ l = k := by omega
    refine does_bind.2 (does_node ?_)
    rw [hnode]
    dsimp only
    rw [cleared_addrs_self]
    refine does_bind.2 (does_when (fun h0 => ?_) fun h0 => ?_)
    · rw [← haddr] at h0 ⊢
      obtain ⟨hu, -⟩ := hf.marked h.live hk (Nat.lt_irrefl k) h0
      have hf' := (hf.free h.geometry h.live hk (Nat.lt_irrefl k) h0).congr hgone
      have hstep := ih (by omega) hf'
      rw [← setAddr_cleared] at hstep
      refine does_bind.2 (does_bfree hT (h.bufs _) hu ?_)
      show Does E p (modifyNode ip fun d => d.setAddr k 0) _ (s.put (unmark sb disk _) ip _)
      exact does_modifyNode_put hstep
    · have h0' : (ino (s.ident ip).inum).addrs k = 0 := not_not.mp h0
      have hstep := ih (by omega) (hf.more (fun l hl => Nat.lt_succ_of_lt hl) fun l _ hl hn => by
        obtain rfl : l = k := by omega
        exact haddr.trans h0')
      rwa [cleared_succ_of_zero h0'] at hstep

theorem Editing.does_itruncIndirect (hT : s.InTrans) {j : Nat}
    (hi0 : (ino (s.ident ip).inum).addrs NDIRECT ≠ 0) (hn : j + n = NINDIRECT)
    (hf : Freed sb ino (s.ident ip).inum s.disk
      (fun l => l < NDIRECT ∨ NDIRECT < l ∧ l < NDIRECT + 1 + j) disk)
    (hq : ∀ disk', Freed sb ino (s.ident ip).inum s.disk (fun l => l ≠ NDIRECT) disk' →
      Q () ((s.put disk' ip d).setBuf ((ino (s.ident ip).inum).addrs NDIRECT) (some p))) :
    Does E p (itruncIndirect sb (s.disk ((ino (s.ident ip).inum).addrs NDIRECT)) n j) Q
      ((s.put disk ip d).setBuf ((ino (s.ident ip).inum).addrs NDIRECT) (some p)) := by
  have hind : entry s.disk (ino (s.ident ip).inum) NDIRECT = (ino (s.ident ip).inum).addrs NDIRECT :=
    entry_direct le_rfl
  have hlo := (h.wf.owned.area (_, NDIRECT) ⟨h.live, ndirect_lt⟩ (by rwa [hind])).1
  rw [hind] at hlo
  induction n generalizing j disk with
  | zero =>
    obtain rfl : j = NINDIRECT := hn
    refine hq disk (hf.congr fun l hl => ?_)
    have hlt : l < NDIRECT + 1 + NINDIRECT := hl
    omega
  | succ n ih =>
    have hk : NDIRECT + 1 + j < NPLACE := by
      show _ < NDIRECT + 1 + NINDIRECT
      omega
    have hent : entry s.disk (ino (s.ident ip).inum) (NDIRECT + 1 + j) =
        word (s.disk ((ino (s.ident ip).inum).addrs NDIRECT)) j := entry_word hi0
    have hnot : ¬(NDIRECT + 1 + j < NDIRECT ∨ NDIRECT < NDIRECT + 1 + j ∧
      NDIRECT + 1 + j < NDIRECT + 1 + j) := by omega
    have hgone (l : Nat) : (l < NDIRECT ∨ NDIRECT < l ∧ l < NDIRECT + 1 + (j + 1)) ↔
        (l < NDIRECT ∨ NDIRECT < l ∧ l < NDIRECT + 1 + j) ∨ l = NDIRECT + 1 + j := by omega
    refine does_bind.2 (does_when (fun h0 => ?_) fun h0 => ?_)
    · rw [← hent] at h0 ⊢
      obtain ⟨hu, hlt⟩ := hf.marked h.live hk hnot h0
      have hb := h.geometry.bitmap _ hlt
      have hbuf : ((s.put disk ip d).setBuf ((ino (s.ident ip).inum).addrs NDIRECT) (some p)).buf
          (sb.bblock (entry s.disk (ino (s.ident ip).inum) (NDIRECT + 1 + j))) = none :=
        (update_of_ne (by omega) _ _).trans (h.bufs _)
      refine does_bfree hT hbuf hu ?_
      exact ih (by omega) ((hf.free h.geometry h.live hk hnot h0).congr fun l _ => hgone l)
    · refine ih (by omega) (hf.more (fun l hl => ((hgone l).mpr (.inl hl))) fun l _ hl hn => ?_)
      obtain rfl := ((hgone l).mp hl).resolve_left hn
      exact hent.trans (not_not.mp h0)

theorem Editing.does_itruncEnd (hT : s.InTrans)
    (hf : Freed sb ino (s.ident ip).inum s.disk (fun _ => True) disk)
    (hq : ∀ disk', WellFormed sb (update ino (s.ident ip).inum
        (emptied (ino (s.ident ip).inum))) disk' → Kept sb ino (s.ident ip).inum s.disk disk' →
      Q () (s.put (putInode sb disk' (s.ident ip).inum (emptied (ino (s.ident ip).inum))) ip
        (emptied (ino (s.ident ip).inum)))) :
    Does E p (modifyNode ip (fun d => { d with size := 0 }) >>= fun _ => iupdate sb ip) Q
      (s.put disk ip (cleared (ino (s.ident ip).inum) (NDIRECT + 1))) := by
  have hempty : { cleared (ino (s.ident ip).inum) (NDIRECT + 1) with size := 0 } =
      emptied (ino (s.ident ip).inum) := by
    refine Dinode.ext rfl rfl rfl rfl rfl (funext fun l => ?_)
    show (if l < NDIRECT + 1 then 0 else (ino (s.ident ip).inum).addrs l) = 0
    split
    · rfl
    · exact h.fits.zero l (by omega)
  obtain ⟨hwf, hkept⟩ := hf.wf (fun _ _ => trivial) h.wf (n := emptied (ino (s.ident ip).inum))
    (fun _ => rfl) rfl
  refine does_bind.2 (does_modifyNode_put ?_)
  rw [hempty]
  refine does_iupdate hT h.bufs ?_
  rw [put_node]
  exact hq disk hwf hkept

/-- **`itrunc`** frees every block of the inode, and no other. -/
theorem Editing.does_itrunc (hT : s.InTrans)
    (hq : ∀ disk', WellFormed sb (update ino (s.ident ip).inum
        (emptied (ino (s.ident ip).inum))) disk' → Kept sb ino (s.ident ip).inum s.disk disk' →
      Q () (s.put (putInode sb disk' (s.ident ip).inum (emptied (ino (s.ident ip).inum))) ip
        (emptied (ino (s.ident ip).inum)))) : Does E p (itrunc sb ip) Q s := by
  unfold itrunc
  refine does_bind.2 (does_enter ?_)
  have hs : s = s.put s.disk ip (cleared (ino (s.ident ip).inum) 0) := by
    rw [cleared_zero, put_self h.node]
  have hstart := h.wf.freed (i := (s.ident ip).inum)
  refine does_bind.2 ?_
  rw [hs]
  refine h.does_itruncDirect hT (Nat.zero_add _) (hstart.congr fun l _ => by simp) fun disk hf => ?_
  refine does_bind.2 (does_node ?_)
  rw [put_node]
  have hind : entry s.disk (ino (s.ident ip).inum) NDIRECT = (ino (s.ident ip).inum).addrs NDIRECT :=
    entry_direct le_rfl
  dsimp only
  rw [cleared_addrs_self]
  refine does_bind.2 (does_when (fun h0 => ?_) fun h0 => ?_)
  · have hlo : sb.datastart ≤ (ino (s.ident ip).inum).addrs NDIRECT := by
      have := (h.wf.owned.area (_, NDIRECT) ⟨h.live, ndirect_lt⟩ (by rwa [hind])).1
      rwa [hind] at this
    refine does_bind.2 (does_bread (h.bufs _) ?_)
    rw [show (s.put disk ip _).disk _ = _ from hf.rest _ (.inr hlo)]
    refine does_bind.2 (h.does_itruncIndirect hT h0 (Nat.zero_add _) (hf.congr fun l _ => by omega)
      fun disk' hf' => ?_)
    refine does_bind.2 (does_brelse (update_self ..) ?_)
    rw [setBuf_setBuf, setBuf_none (show (s.put disk' ip _).buf _ = none from h.bufs _)]
    rw [← hind] at h0 ⊢
    obtain ⟨hu, -⟩ := hf'.marked h.live ndirect_lt (not_not.mpr rfl) h0
    refine does_bind.2 (does_bfree hT (h.bufs _) hu ?_)
    show Does E p (modifyNode ip fun d => d.setAddr NDIRECT 0) _ (s.put (unmark sb disk' _) ip _)
    refine does_modifyNode_put ?_
    rw [setAddr_cleared]
    refine h.does_itruncEnd hT ?_ hq
    exact (hf'.free h.geometry h.live ndirect_lt (not_not.mpr rfl) h0).congr fun l _ => by
      simp only [true_iff]
      exact Or.symm (em _)
  · have h0' : (ino (s.ident ip).inum).addrs NDIRECT = 0 := not_not.mp h0
    rw [← cleared_succ_of_zero h0']
    refine h.does_itruncEnd hT (hf.more (fun _ _ => trivial) fun l hl _ hn => ?_) hq
    rcases place_cases hl with hd | ⟨j, -, rfl⟩
    · obtain rfl : l = NDIRECT := by omega
      exact hind.trans h0'
    · exact entry_noWord h0'

end

end ZeptOS.Fs
