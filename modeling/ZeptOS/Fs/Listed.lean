import ZeptOS.Fs.Volume
import ZeptOS.Lib.Owner

/-!
# The blocks of an inode

An inode has places for block numbers: its addresses, of which the last is the indirect block, and the
words of that block. `WellFormed` says that the places of all inodes own the data blocks (`Owned`), and that
every block of a file up to its size is there. `content` is what the file holds, a byte at each
offset, and 0 where there is no block.

The table of inodes is a parameter: while a process changes an inode, what counts is the copy in memory.
The changes that the code makes are to one inode `i`, and `Kept` is what they leave alone.
-/

namespace ZeptOS.Fs

open Lib Function

variable {a b i j k l bn : Nat} {d d' : Dinode} {disk disk' disk'' : Disk} {sb : Superblock}
  {ino : Nat → Dinode}

abbrev NPLACE : Nat := NDIRECT + 1 + NINDIRECT

theorem ndirect_lt : NDIRECT < NPLACE := by decide

/-- `ip->addrs[k] = a` -/
def Dinode.setAddr (d : Dinode) (k a : Nat) : Dinode :=
  { d with addrs := Function.update d.addrs k a }

theorem Dinode.setAddr_self (d : Dinode) (k a : Nat) : (d.setAddr k a).addrs k = a :=
  update_self ..

theorem Dinode.setAddr_of_ne (h : l ≠ k) : (d.setAddr k a).addrs l = d.addrs l := update_of_ne h _ _

theorem Dinode.Fits.setAddr (h : d.Fits) (hk : k ≤ NDIRECT) (ha : a < 2 ^ 32) :
    (d.setAddr k a).Fits where
  type := h.type
  major := h.major
  minor := h.minor
  nlink := h.nlink
  size := h.size
  addrs l := by
    by_cases hlk : l = k
    · rwa [hlk, setAddr_self]
    · rw [setAddr_of_ne hlk]
      exact h.addrs l
  zero l hl := by
    rw [setAddr_of_ne (by omega)]
    exact h.zero l hl

def entry (disk : Disk) (d : Dinode) (k : Nat) : Nat :=
  if k ≤ NDIRECT then d.addrs k
  else if d.addrs NDIRECT = 0 then 0
  else word (disk (d.addrs NDIRECT)) (k - (NDIRECT + 1))

def place (bn : Nat) : Nat := if bn < NDIRECT then bn else bn + 1

def mapped (disk : Disk) (d : Dinode) (bn : Nat) : Nat := entry disk d (place bn)

def content (disk : Disk) (d : Dinode) (off : Nat) : UInt8 :=
  if mapped disk d (off / BSIZE) = 0 then 0 else disk (mapped disk d (off / BSIZE)) (off % BSIZE)

def Live (sb : Superblock) (ino : Nat → Dinode) (i : Nat) : Prop :=
  i < sb.ninodes ∧ (ino i).type ≠ 0

/-- **Block ownership.** -/
structure WellFormed (sb : Superblock) (ino : Nat → Dinode) (disk : Disk) : Prop where
  /-- every listed block is in the data area, listed once, and marked, and no other data block is -/
  owned : Owned sb.datastart sb.size (fun x : Nat × Nat => Live sb ino x.1 ∧ x.2 < NPLACE)
    (fun x => entry disk (ino x.1) x.2) (used sb disk)
  size : ∀ i, i < sb.ninodes → (ino i).size ≤ MAXFILE * BSIZE
  /-- no hole below the size -/
  full : ∀ i bn, Live sb ino i → bn * BSIZE < (ino i).size → mapped disk (ino i) bn ≠ 0

section Places

variable {off : Nat}

theorem place_lt (h : bn < MAXFILE) : place bn < NPLACE := by
  unfold place
  have : bn < 316 := h
  show _ < 317
  split <;> omega

theorem place_ne : place bn ≠ NDIRECT := by
  unfold place
  show _ ≠ 60
  split
  · next h =>
    have : bn < 60 := h
    omega
  · next h =>
    have : ¬bn < 60 := h
    omega

theorem place_inj {bn' : Nat} (h : place bn = place bn') : bn = bn' := by
  unfold place at h
  split at h <;> split at h <;> omega

theorem entry_direct (h : k ≤ NDIRECT) : entry disk d k = d.addrs k := if_pos h

theorem entry_word (h : d.addrs NDIRECT ≠ 0) :
    entry disk d (NDIRECT + 1 + j) = word (disk (d.addrs NDIRECT)) j := by
  unfold entry
  rw [if_neg (by omega), if_neg h, Nat.add_sub_cancel_left]

theorem entry_noWord (h : d.addrs NDIRECT = 0) : entry disk d (NDIRECT + 1 + j) = 0 := by
  unfold entry
  rw [if_neg (by omega), if_pos h]

theorem place_cases (hk : k < NPLACE) : k ≤ NDIRECT ∨ ∃ j, j < NINDIRECT ∧ k = NDIRECT + 1 + j := by
  have hlt : k < NDIRECT + 1 + NINDIRECT := hk
  by_cases h : k ≤ NDIRECT
  · exact .inl h
  · exact .inr ⟨k - (NDIRECT + 1), by omega, by omega⟩

/-- No block of the inode is different on the other disk. -/
def Untouched (disk disk' : Disk) (d : Dinode) : Prop :=
  ∀ k, k < NPLACE → entry disk d k ≠ 0 → disk' (entry disk d k) = disk (entry disk d k)

theorem Untouched.entry (h : Untouched disk disk' d) (k : Nat) :
    entry disk' d k = entry disk d k := by
  unfold Fs.entry
  split
  · rfl
  · split
    · rfl
    · next h0 =>
      have hind := h NDIRECT (by decide)
      rw [entry_direct le_rfl] at hind
      rw [hind h0]

theorem Untouched.content (h : Untouched disk disk' d) (ho : off < MAXFILE * BSIZE) :
    content disk' d off = content disk d off := by
  have hbn : off / BSIZE < MAXFILE := Nat.div_lt_of_lt_mul (by rwa [Nat.mul_comm] at ho)
  unfold Fs.content mapped
  rw [h.entry]
  split
  · rfl
  · next h0 => rw [h _ (place_lt hbn) h0]

theorem Untouched.trans (h : Untouched disk disk' d) (h' : Untouched disk' disk'' d) :
    Untouched disk disk'' d := by
  intro k hk h0
  have h₂ := h' k hk (by rwa [h.entry])
  rw [h.entry] at h₂
  rw [h₂, h k hk h0]

end Places

/-! ## Changes to one inode -/

/-- What a change to inode `i` leaves alone: the table on the disk, and the blocks of the others. -/
structure Kept (sb : Superblock) (ino : Nat → Dinode) (i : Nat) (disk disk' : Disk) : Prop where
  table : ∀ b, b < sb.bmapstart → disk' b = disk b
  others : ∀ j, j ≠ i → Live sb ino j → Untouched disk disk' (ino j)

theorem Kept.refl : Kept sb ino i disk disk := ⟨fun _ _ => rfl, fun _ _ _ _ _ _ => rfl⟩

variable {n : Dinode}

theorem Kept.trans (h : Kept sb ino i disk disk') (h' : Kept sb (update ino i n) i disk' disk'') :
    Kept sb ino i disk disk'' where
  table b hb := by rw [h'.table b hb, h.table b hb]
  others j hj hl := by
    refine (h.others j hj hl).trans ?_
    have h₂ := h'.others j hj
    simp only [Live, update_of_ne hj] at h₂
    exact h₂ hl

def grab (sb : Superblock) (disk : Disk) (a : Nat) : Disk :=
  Function.update (mark sb disk a) a (Bytes.fill 0)

theorem grab_apply (hg : sb.Geometry) (ha : a < sb.size) (hb : b ≠ a)
    (harea : b < sb.bmapstart ∨ sb.datastart ≤ b) : grab sb disk a b = disk b := by
  rw [grab, update_of_ne hb, mark_apply hg ha harea]

theorem grab_self : grab sb disk a a = Bytes.fill 0 := update_self ..

theorem used_grab (hg : sb.Geometry) (hb : b < sb.size) (ha : sb.datastart ≤ a) :
    used sb (grab sb disk a) b = (decide (b = a) || used sb disk b) := by
  rw [← used_mark]
  exact used_congr hg hb fun c _ hc => update_of_ne (by omega) _ _

theorem WellFormed.untouched_of_listed (hw : WellFormed sb ino disk) (hl : Live sb ino i)
    (hk : k < NPLACE)
    (h : ∀ b, sb.datastart ≤ b → b < sb.size → b ≠ entry disk (ino i) k → disk' b = disk b)
    (hj : j ≠ i) (hlj : Live sb ino j) : Untouched disk disk' (ino j) := by
  intro l hl' hl0
  obtain ⟨hlo, hhi⟩ := hw.owned.area (j, l) ⟨hlj, hl'⟩ hl0
  refine h _ hlo hhi fun he => hj ?_
  exact (Prod.mk.inj (hw.owned.once (j, l) (i, k) ⟨hlj, hl'⟩ ⟨hl, hk⟩ he hl0)).1

/-- **A change that adds blocks** to inode `i`, which is then `n`. The file reads as before. -/
structure Grows (sb : Superblock) (ino : Nat → Dinode) (i : Nat) (disk : Disk) (n : Dinode)
    (disk' : Disk) : Prop where
  wf : WellFormed sb (Function.update ino i n) disk'
  kept : Kept sb ino i disk disk'
  same : n = { ino i with addrs := n.addrs }
  fits : n.Fits
  entries : ∀ k, k < NPLACE → entry disk (ino i) k ≠ 0 →
    entry disk' n k = entry disk (ino i) k
  content : ∀ off, off < MAXFILE * BSIZE → content disk' n off = content disk (ino i) off

theorem Grows.refl (hw : WellFormed sb ino disk) (hf : (ino i).Fits) :
    Grows sb ino i disk (ino i) disk where
  wf := by rwa [update_eq_self]
  kept := .refl
  same := rfl
  fits := hf
  entries _ _ _ := rfl
  content _ _ := rfl

theorem Grows.trans {n' : Dinode} (h : Grows sb ino i disk n disk')
    (h' : Grows sb (update ino i n) i disk' n' disk'') : Grows sb ino i disk n' disk'' := by
  obtain ⟨wf, kept, same, fits, entries, content⟩ := h'
  rw [update_idem] at wf
  simp only [update_self] at same entries content
  refine ⟨wf, h.kept.trans kept, ?_, fits, fun k hk h0 => ?_, fun off ho => ?_⟩
  · rw [same, h.same]
  · have h₁ := h.entries k hk h0
    rw [entries k hk (by rwa [h₁]), h₁]
  · rw [content off ho, h.content off ho]

/-- The size and the type of the inodes stay, and so the files stay full, while blocks are added. -/
theorem WellFormed.grow (hw : WellFormed sb ino disk) (hsame : n = { ino i with addrs := n.addrs })
    (howned : Owned sb.datastart sb.size (fun x : Nat × Nat => Live sb ino x.1 ∧ x.2 < NPLACE)
      (fun x => entry disk' (update ino i n x.1) x.2) (used sb disk'))
    (hothers : ∀ j, j ≠ i → Live sb ino j → Untouched disk disk' (ino j))
    (hentries : ∀ k, k < NPLACE → entry disk (ino i) k ≠ 0 → entry disk' n k ≠ 0) :
    WellFormed sb (update ino i n) disk' := by
  have hattr (j : Nat) : (update ino i n j).type = (ino j).type ∧
      (update ino i n j).size = (ino j).size := by
    by_cases hj : j = i
    · subst hj
      rw [update_self, hsame]
      exact ⟨rfl, rfl⟩
    · rw [update_of_ne hj]
      exact ⟨rfl, rfl⟩
  have hlive (j : Nat) : Live sb (update ino i n) j ↔ Live sb ino j := by
    unfold Live
    rw [(hattr j).1]
  refine ⟨?_, fun j hj => ?_, fun j bn hj hbn => ?_⟩
  · exact howned.congr (fun x => by rw [hlive]) (fun _ _ => rfl) fun _ _ => rfl
  · rw [(hattr j).2]
    exact hw.size j hj
  · rw [hlive] at hj
    rw [(hattr j).2] at hbn
    have h0 := hw.full j bn hj hbn
    have hlt : bn < MAXFILE := by
      have := hw.size j hj.1
      exact Nat.lt_of_mul_lt_mul_right (hbn.trans_le this)
    by_cases hji : j = i
    · subst hji
      rw [update_self]
      exact hentries _ (place_lt hlt) h0
    · rw [update_of_ne hji, mapped, (hothers j hji hj).entry]
      exact h0

/-- **A free block goes to an empty place** of inode `i`: all that changes besides is the indirect block
of the inode, if the place is in it. -/
theorem WellFormed.takes (hw : WellFormed sb ino disk)
    (hl : Live sb ino i) (hsame : n = { ino i with addrs := n.addrs }) (hf : n.Fits)
    (hk : k < NPLACE) (h0 : entry disk (ino i) k = 0) (ha : a < sb.size)
    (hu : used sb disk a = false)
    (hent : ∀ l, l < NPLACE → entry disk' n l = if l = k then a else entry disk (ino i) l)
    (htable : ∀ b, b < sb.bmapstart → disk' b = disk b)
    (hdata : ∀ b, sb.datastart ≤ b → b < sb.size → b ≠ a →
      b ≠ entry disk (ino i) NDIRECT → disk' b = disk b)
    (hzero : disk' a = Bytes.fill 0)
    (hused : ∀ b, b < sb.size → used sb disk' b = (decide (b = a) || used sb disk b)) :
    Grows sb ino i disk n disk' := by
  obtain ⟨hlo, hnot⟩ := hw.owned.unmarked ha hu
  have ha0 : a ≠ 0 := Nat.ne_of_gt (hw.owned.pos.trans_le hlo)
  have hothers (j : Nat) (hj : j ≠ i) (hlj : Live sb ino j) : Untouched disk disk' (ino j) := by
    intro l hl' hl0
    obtain ⟨hlo, hhi⟩ := hw.owned.area (j, l) ⟨hlj, hl'⟩ hl0
    refine hdata _ hlo hhi (hnot (j, l) ⟨hlj, hl'⟩) fun he => hj ?_
    exact (Prod.mk.inj (hw.owned.once (j, l) (i, NDIRECT) ⟨hlj, hl'⟩ ⟨hl, ndirect_lt⟩ he hl0)).1
  have hentries (l : Nat) (hl' : l < NPLACE) (hl0 : entry disk (ino i) l ≠ 0) :
      entry disk' n l = entry disk (ino i) l := by
    rw [hent l hl', if_neg]
    rintro rfl
    exact hl0 h0
  have howned : Owned sb.datastart sb.size (fun x : Nat × Nat => Live sb ino x.1 ∧ x.2 < NPLACE)
      (fun x => entry disk' (update ino i n x.1) x.2) (used sb disk') := by
    refine hw.owned.take (k := (i, k)) ⟨hl, hk⟩ h0 ha ha0 hu ?_ hused
    rintro ⟨j, l⟩ ⟨hlj, hl'⟩
    dsimp only
    by_cases hj : j = i
    · subst hj
      rw [update_self, hent l hl']
      simp
    · rw [update_of_ne hj, (hothers j hj hlj).entry, if_neg]
      exact fun he => hj (Prod.mk.inj he).1
  refine ⟨hw.grow hsame howned hothers fun l hl' hl0 => by rwa [hentries l hl' hl0],
    ⟨htable, hothers⟩, hsame, hf, hentries, fun off ho => ?_⟩
  have hbn : off / BSIZE < MAXFILE := Nat.div_lt_of_lt_mul (by rwa [Nat.mul_comm] at ho)
  unfold Fs.content mapped
  by_cases hp : place (off / BSIZE) = k
  · -- the new block is zero, where there was none
    rw [hent _ (place_lt hbn), if_pos hp, if_neg ha0, hzero, hp, h0, if_pos rfl]
    rfl
  · rw [hent _ (place_lt hbn), if_neg hp]
    split
    · rfl
    · next hl0 =>
      obtain ⟨hlo, hhi⟩ := hw.owned.area (i, place (off / BSIZE)) ⟨hl, place_lt hbn⟩ hl0
      rw [hdata _ hlo hhi (hnot (i, _) ⟨hl, place_lt hbn⟩) fun he => ?_]
      have hpl := hw.owned.once (i, place (off / BSIZE)) (i, NDIRECT) ⟨hl, place_lt hbn⟩
        ⟨hl, ndirect_lt⟩ he hl0
      exact place_ne (Prod.mk.inj hpl).2

theorem WellFormed.entry_grabAddr (hg : sb.Geometry) (hw : WellFormed sb ino disk)
    (hl : Live sb ino i) (hk : k ≤ NDIRECT) (h0 : (ino i).addrs k = 0) (ha : a < sb.size)
    (hu : used sb disk a = false) (hl' : l < NPLACE) :
    entry (grab sb disk a) ((ino i).setAddr k a) l = if l = k then a else entry disk (ino i) l := by
  have hlo := (hw.owned.unmarked ha hu).1
  rcases place_cases hl' with hld | ⟨j, hj, rfl⟩
  · rw [entry_direct hld, entry_direct hld]
    by_cases hlk : l = k
    · rw [if_pos hlk, hlk, Dinode.setAddr_self]
    · rw [if_neg hlk, Dinode.setAddr_of_ne hlk]
  · rw [if_neg (by omega)]
    by_cases hkn : k = NDIRECT
    · -- the new indirect block has no words
      subst hkn
      have ha0 : a ≠ 0 := Nat.ne_of_gt (hw.owned.pos.trans_le hlo)
      rw [entry_word (by rwa [Dinode.setAddr_self]), Dinode.setAddr_self, grab_self, word_zero,
        entry_noWord h0]
    · by_cases hi0 : (ino i).addrs NDIRECT = 0
      · rw [entry_noWord hi0, entry_noWord (by rwa [Dinode.setAddr_of_ne (Ne.symm hkn)])]
      · have hind : entry disk (ino i) NDIRECT ≠ 0 := by rwa [entry_direct le_rfl]
        have harea := hw.owned.area (i, NDIRECT) ⟨hl, ndirect_lt⟩ hind
        have hne := (hw.owned.unmarked ha hu).2 (i, NDIRECT) ⟨hl, ndirect_lt⟩
        simp only [entry_direct (Nat.le_refl NDIRECT)] at harea hne
        rw [entry_word (by rwa [Dinode.setAddr_of_ne (Ne.symm hkn)]), entry_word hi0,
          Dinode.setAddr_of_ne (Ne.symm hkn), grab_apply hg ha hne (.inr harea.1)]

/-- **`balloc` fills an address** that was 0: of a direct block, or of the indirect one. -/
theorem WellFormed.grabAddr (hg : sb.Geometry) (hw : WellFormed sb ino disk) (hl : Live sb ino i)
    (hf : (ino i).Fits) (hk : k ≤ NDIRECT) (h0 : (ino i).addrs k = 0) (ha : a < sb.size)
    (hu : used sb disk a = false) : Grows sb ino i disk ((ino i).setAddr k a) (grab sb disk a) := by
  have hlo := (hw.owned.unmarked ha hu).1
  have hkp : k < NPLACE := hk.trans_lt (by decide)
  refine hw.takes hl rfl (hf.setAddr hk (ha.trans hg.size_lt)) hkp (by rwa [entry_direct hk])
    ha hu (fun l hl' => hw.entry_grabAddr hg hl hk h0 ha hu hl')
    (fun b hb => grab_apply hg ha (by have := hg.bmapstart_lt; omega) (.inl hb))
    (fun b hb _ hba _ => grab_apply hg ha hba (.inr hb)) grab_self
    fun b hb => used_grab hg hb hlo

theorem entry_setWord (hi0 : d.addrs NDIRECT ≠ 0) (ha : a < 2 ^ 32) (hl : l < NPLACE) :
    entry (update disk' (d.addrs NDIRECT) (setWord (disk (d.addrs NDIRECT)) j a)) d l =
      if l = NDIRECT + 1 + j then a else entry disk d l := by
  rcases place_cases hl with hld | ⟨m, hm, rfl⟩
  · rw [entry_direct hld, entry_direct hld, if_neg (by omega)]
  · rw [entry_word hi0, entry_word hi0, update_self]
    by_cases hmj : m = j
    · rw [if_pos (by omega), hmj, word_setWord_self ha]
    · rw [if_neg (by omega), word_setWord_of_ne hmj]

/-- **`balloc` fills a word** of the indirect block that was 0. -/
theorem WellFormed.grabWord (hg : sb.Geometry) (hw : WellFormed sb ino disk) (hl : Live sb ino i)
    (hf : (ino i).Fits) (hj : j < NINDIRECT) (hi0 : (ino i).addrs NDIRECT ≠ 0)
    (h0 : word (disk ((ino i).addrs NDIRECT)) j = 0) (ha : a < sb.size)
    (hu : used sb disk a = false) :
    Grows sb ino i disk (ino i) (update (grab sb disk a) ((ino i).addrs NDIRECT)
      (setWord (disk ((ino i).addrs NDIRECT)) j a)) := by
  have hlo := (hw.owned.unmarked ha hu).1
  have hind : entry disk (ino i) NDIRECT = (ino i).addrs NDIRECT := entry_direct le_rfl
  have harea := hw.owned.area (i, NDIRECT) ⟨hl, ndirect_lt⟩ (by rwa [hind])
  have hne := (hw.owned.unmarked ha hu).2 (i, NDIRECT) ⟨hl, ndirect_lt⟩
  simp only [hind] at harea hne
  have hbm := hg.bmapstart_lt
  refine hw.takes hl rfl hf (k := NDIRECT + 1 + j) (by show _ < NDIRECT + 1 + NINDIRECT; omega)
    (by rwa [entry_word hi0]) ha hu (fun l hl' => entry_setWord hi0 (ha.trans hg.size_lt) hl')
    (fun b hb => ?_) (fun b hb _ hba hbi => ?_) ?_ fun b hb => ?_
  · rw [update_of_ne (by omega), grab_apply hg ha (by omega) (.inl hb)]
  · rw [hind] at hbi
    rw [update_of_ne hbi, grab_apply hg ha hba (.inr hb)]
  · rw [update_of_ne (Ne.symm hne), grab_self]
  · rw [← used_grab hg hb hlo]
    exact used_congr hg hb fun c _ hc => update_of_ne (by omega) _ _

/-! ## Changes that add no block -/

theorem WellFormed.untouched_of_table (hg : sb.Geometry) (hw : WellFormed sb ino disk)
    (h : ∀ b, sb.bmapstart ≤ b → disk' b = disk b) (hl : Live sb ino i) :
    Untouched disk disk' (ino i) := by
  intro k hk h0
  have hlo : sb.datastart ≤ entry disk (ino i) k := (hw.owned.area (i, k) ⟨hl, hk⟩ h0).1
  have hbm := hg.bmapstart_lt
  exact h _ (by omega)

theorem WellFormed.of_table (hg : sb.Geometry) (hw : WellFormed sb ino disk)
    (h : ∀ b, sb.bmapstart ≤ b → disk' b = disk b) : WellFormed sb ino disk' := by
  have hun (j : Nat) (hj : Live sb ino j) : Untouched disk disk' (ino j) :=
    hw.untouched_of_table hg h hj
  refine ⟨hw.owned.congr (fun _ => Iff.rfl) (fun x hx => (hun x.1 hx.1).entry x.2) fun b hb => ?_,
    hw.size, fun j bn hj hbn => ?_⟩
  · exact used_congr hg hb fun a ha _ => h a ha
  · rw [mapped, (hun j hj).entry]
    exact hw.full j bn hj hbn

theorem entry_addrs (h : d'.addrs = d.addrs) (k : Nat) : entry disk d' k = entry disk d k := by
  unfold entry
  rw [h]

theorem content_addrs (h : d'.addrs = d.addrs) (off : Nat) :
    content disk d' off = content disk d off := by
  unfold content mapped
  rw [entry_addrs h]

/-- **The attributes of an inode change**: it stays allocated, and is full up to its new size. -/
theorem WellFormed.setAttr (hw : WellFormed sb ino disk) (ha : n.addrs = (ino i).addrs)
    (hl : n.type ≠ 0 ↔ (ino i).type ≠ 0) (hsize : n.size ≤ MAXFILE * BSIZE)
    (hfull : ∀ bn, bn * BSIZE < n.size → mapped disk (ino i) bn ≠ 0) :
    WellFormed sb (update ino i n) disk := by
  have hlive (j : Nat) : Live sb (update ino i n) j ↔ Live sb ino j := by
    unfold Live
    by_cases hj : j = i
    · rw [hj, update_self, hl]
    · rw [update_of_ne hj]
  have hent (j k : Nat) : entry disk (update ino i n j) k = entry disk (ino j) k := by
    by_cases hj : j = i
    · rw [hj, update_self]
      exact entry_addrs ha k
    · rw [update_of_ne hj]
  refine ⟨hw.owned.congr (fun x => by rw [hlive]) (fun x _ => hent x.1 x.2) fun _ _ => rfl,
    fun j hj => ?_, fun j bn hj hbn => ?_⟩
  · by_cases hji : j = i
    · rwa [hji, update_self]
    · rw [update_of_ne hji]
      exact hw.size j hj
  · rw [mapped, hent]
    by_cases hji : j = i
    · subst hji
      rw [update_self] at hbn
      exact hfull bn hbn
    · rw [update_of_ne hji] at hbn
      exact hw.full j bn ((hlive j).mp hj) hbn

/-- **A block of a file is written.** -/
theorem WellFormed.writeBlock (hg : sb.Geometry) (hw : WellFormed sb ino disk) (hl : Live sb ino i)
    (hbn : bn < MAXFILE) (h0 : mapped disk (ino i) bn ≠ 0) (data : Block) :
    WellFormed sb ino (update disk (mapped disk (ino i) bn) data) ∧
    Kept sb ino i disk (update disk (mapped disk (ino i) bn) data) ∧
    (∀ k, entry (update disk (mapped disk (ino i) bn) data) (ino i) k = entry disk (ino i) k) ∧
    ∀ off, off < MAXFILE * BSIZE → content (update disk (mapped disk (ino i) bn) data) (ino i) off =
        if off / BSIZE = bn then data (off % BSIZE) else content disk (ino i) off := by
  obtain ⟨hlo, hhi⟩ := hw.owned.area (i, place bn) ⟨hl, place_lt hbn⟩ h0
  have hbm := hg.bmapstart_lt
  have hlo' : sb.datastart ≤ mapped disk (ino i) bn := hlo
  -- the block is no indirect block
  have hent (k : Nat) : entry (update disk (mapped disk (ino i) bn) data) (ino i) k =
      entry disk (ino i) k := by
    unfold entry
    split
    · rfl
    · split
      · rfl
      · next hi0 =>
        rw [update_of_ne fun he => ?_]
        have hind : entry disk (ino i) NDIRECT = (ino i).addrs NDIRECT :=
          entry_direct le_rfl
        have hpl := hw.owned.once (i, NDIRECT) (i, place bn) ⟨hl, ndirect_lt⟩ ⟨hl, place_lt hbn⟩
          (hind.trans he) (by rwa [hind])
        exact place_ne (Prod.mk.inj hpl).2.symm
  have hothers (j : Nat) (hj : j ≠ i) (hlj : Live sb ino j) :
      Untouched disk (update disk (mapped disk (ino i) bn) data) (ino j) :=
    hw.untouched_of_listed hl (place_lt hbn) (fun b _ _ hb => update_of_ne hb _ _) hj hlj
  have hentj (j : Nat) (hlj : Live sb ino j) (k : Nat) :
      entry (update disk (mapped disk (ino i) bn) data) (ino j) k =
        entry disk (ino j) k := by
    by_cases hj : j = i
    · rw [hj]
      exact hent k
    · exact (hothers j hj hlj).entry k
  refine ⟨⟨hw.owned.congr (fun _ => Iff.rfl) (fun x hx => hentj x.1 hx.1 x.2) fun b hb => ?_,
    hw.size, fun j m hj hm => ?_⟩, ⟨fun b hb => ?_, hothers⟩, hent, fun off ho => ?_⟩
  · exact used_congr hg hb fun c _ hc => update_of_ne (by omega) _ _
  · rw [mapped, hentj j hj]
    exact hw.full j m hj hm
  · exact update_of_ne (by omega) _ _
  · have hoff : off / BSIZE < MAXFILE := Nat.div_lt_of_lt_mul (by rwa [Nat.mul_comm] at ho)
    have hmap (m : Nat) : mapped (update disk (mapped disk (ino i) bn) data) (ino i) m =
        mapped disk (ino i) m := hent _
    unfold content
    rw [hmap]
    by_cases hb : off / BSIZE = bn
    · rw [if_pos hb, hb, if_neg h0]
      exact congrFun (update_self ..) _
    · rw [if_neg hb]
      split
      · rfl
      · next hne =>
        rw [update_of_ne fun he => hb ?_]
        have hpl := hw.owned.once (i, place (off / BSIZE)) (i, place bn) ⟨hl, place_lt hoff⟩
          ⟨hl, place_lt hbn⟩ he hne
        exact place_inj (Prod.mk.inj hpl).2

end ZeptOS.Fs
