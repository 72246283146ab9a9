import ZeptOS.Fs.Freeing
import ZeptOS.Fs.Table

/-!
# The volume

Seen from above the blocks, a disk is a `volume`: for every inode number the attributes and the bytes of a
file, or nothing. Between the functions of `fs.c` the copies of inodes in memory agree with the disk
(`Synced`), and so a function that changes one inode changes the volume at one number: `Synced.commit`
is what all of them come down to.
-/

namespace ZeptOS.Fs

open Lib Lib.Code Function

variable {disk : Disk} {n : Dinode} {sb : Superblock}

/-- An inode and what is in its file, which is 0 from its end on. -/
structure Vnode where
  type : Nat
  major : Nat
  minor : Nat
  nlink : Nat
  size : Nat
  bytes : Bytes

def vnode (disk : Disk) (d : Dinode) : Vnode :=
  ⟨d.type, d.major, d.minor, d.nlink, d.size, fun x => if x < d.size then content disk d x else 0⟩

instance (sb : Superblock) (ino : Nat → Dinode) (i : Nat) : Decidable (Live sb ino i) :=
  inferInstanceAs (Decidable (_ ∧ _))

/-- **What the disk holds.** -/
def volume (sb : Superblock) (disk : Disk) (i : Nat) : Option Vnode :=
  if Live sb (inode sb disk) i then some (vnode disk (inode sb disk i)) else none

section Volume

variable {disk' : Disk} {d : Dinode} {i j : Nat} {ino ino' : Nat → Dinode}

theorem volume_of_live (h : Live sb (inode sb disk) i) :
    volume sb disk i = some (vnode disk (inode sb disk i)) := if_pos h

theorem volume_of_not_live (h : ¬Live sb (inode sb disk) i) : volume sb disk i = none := if_neg h

theorem live_of_volume {v : Vnode} (h : volume sb disk i = some v) :
    Live sb (inode sb disk) i ∧ v = vnode disk (inode sb disk i) := by
  unfold volume at h
  split at h
  · next hl => exact ⟨hl, (Option.some.inj h).symm⟩
  · exact nomatch h

theorem Untouched.vnode (h : Untouched disk disk' d) (hs : d.size ≤ MAXFILE * BSIZE) :
    vnode disk' d = vnode disk d := by
  unfold Fs.vnode
  congr 1
  funext x
  split
  · next hx => exact h.content (hx.trans_le hs)
  · rfl

theorem WellFormed.congr (h : WellFormed sb ino disk) (he : ∀ i, i < sb.ninodes → ino' i = ino i) :
    WellFormed sb ino' disk := by
  have hlive (i : Nat) : Live sb ino' i ↔ Live sb ino i :=
    and_congr_right fun hi => by rw [he i hi]
  refine ⟨h.owned.congr (fun x => by rw [hlive]) (fun x hx => by rw [he _ hx.1.1]) fun _ _ => rfl,
    fun i hi => ?_, fun i bn hi hbn => ?_⟩
  · rw [he i hi]
    exact h.size i hi
  · rw [he i hi.1] at hbn ⊢
    exact h.full i bn ((hlive i).mp hi) hbn

theorem inode_put (hg : sb.Geometry) (hk : Kept sb (inode sb disk) i disk disk') (hf : n.Fits)
    (hj : j < sb.ninodes) : inode sb (putInode sb disk' i n) j = update (inode sb disk) i n j := by
  rw [inode_putInode hf]
  by_cases hji : j = i
  · rw [hji, update_self, update_self]
  · rw [update_of_ne hji, update_of_ne hji]
    exact inode_congr hg hj hk.table

section Put

variable (hg : sb.Geometry) (hi : i < sb.ninodes)
  (hwf : WellFormed sb (Function.update (inode sb disk) i n) disk')
  (hk : Kept sb (inode sb disk) i disk disk') (hf : n.Fits)
include hg hi hwf hk hf

theorem wellFormed_put : WellFormed sb (inode sb (putInode sb disk' i n)) (putInode sb disk' i n) :=
  (hwf.congr fun _ hj => inode_put hg hk hf hj).of_table hg
    fun _ hb => putInode_apply hg hi hb

omit hwf hf in
theorem Kept.untouched_put (hw : WellFormed sb (inode sb disk) disk) (hj : j ≠ i)
    (hl : Live sb (inode sb disk) j) :
    Untouched disk (putInode sb disk' i n) (inode sb disk j) := by
  have hun := hk.others j hj hl
  have hbm := hg.bmapstart_lt
  refine hun.trans fun k hk h0 => putInode_apply hg hi ?_
  rw [hun.entry] at h0 ⊢
  have hlo : sb.datastart ≤ entry disk (inode sb disk j) k := (hw.owned.area (j, k) ⟨hl, hk⟩ h0).1
  exact Nat.le_of_lt (hbm.trans_le hlo)

omit hk hf in
theorem untouched_put_self (ht : n.type ≠ 0) : Untouched disk' (putInode sb disk' i n) n := by
  have hl : Live sb (update (inode sb disk) i n) i := ⟨hi, by rwa [update_self]⟩
  have hbm := hg.bmapstart_lt
  intro k hk h0
  have ha := hwf.owned.area (i, k) ⟨hl, hk⟩
  simp only [update_self] at ha
  exact putInode_apply hg hi (Nat.le_of_lt (hbm.trans_le (ha h0).1))

/-- **One inode changes**, and the volume at its number. -/
theorem volume_put (hw : WellFormed sb (inode sb disk) disk) : volume sb (putInode sb disk' i n) =
      update (volume sb disk) i (if n.type = 0 then none else some (vnode disk' n)) := by
  have hself : inode sb (putInode sb disk' i n) i = n := by
    rw [inode_put hg hk hf hi, update_self]
  funext j
  by_cases hji : j = i
  · subst hji
    rw [update_self]
    by_cases ht : n.type = 0
    · rw [if_pos ht, volume_of_not_live fun hl => hl.2 (by rw [hself, ht])]
    · rw [if_neg ht, volume_of_live ⟨hi, by rwa [hself]⟩, hself]
      have hs := hwf.size j hi
      rw [update_self] at hs
      exact congrArg some ((untouched_put_self hg hi hwf ht).vnode hs)
  · rw [update_of_ne hji]
    by_cases hj : j < sb.ninodes
    · have hij : inode sb (putInode sb disk' i n) j = inode sb disk j := by
        rw [inode_put hg hk hf hj, update_of_ne hji]
      by_cases hl : Live sb (inode sb disk) j
      · rw [volume_of_live hl, volume_of_live ⟨hj, by rw [hij]; exact hl.2⟩, hij]
        exact congrArg some ((hk.untouched_put hg hi hw hji hl).vnode (hw.size j hj))
      · rw [volume_of_not_live hl, volume_of_not_live fun hl' => hl ⟨hj, by rw [← hij]; exact hl'.2⟩]
    · rw [volume_of_not_live fun hl => hj hl.1, volume_of_not_live fun hl => hj hl.1]

end Put

end Volume

/-! ## Between the functions -/

/-- **The copies of inodes agree with the disk**, which is well formed, and no buffer is in use. -/
structure Synced (sb : Superblock) (s : State) : Prop where
  geometry : sb.Geometry
  bufs : ∀ b, s.buf b = none
  wf : WellFormed sb (inode sb s.disk) s.disk
  unique : Unique s
  dev : ∀ ip, 0 < (s.ident ip).ref → (s.ident ip).dev = ROOTDEV
  live : ∀ ip, 0 < (s.ident ip).ref → (s.node ip).valid = true →
    Live sb (inode sb s.disk) (s.ident ip).inum
  cache : ∀ ip, 0 < (s.ident ip).ref → (s.node ip).valid = true →
    (s.node ip).d = inode sb s.disk (s.ident ip).inum

section Synced

variable {s : State} {ip jp : Slot}

abbrev State.inum (s : State) (ip : Slot) : Nat := (s.ident ip).inum

theorem Synced.slot_eq (h : Synced sb s) (hi : 0 < (s.ident ip).ref) (hj : 0 < (s.ident jp).ref)
    (he : s.inum ip = s.inum jp) : ip = jp :=
  h.unique ip jp hi hj ((h.dev ip hi).trans (h.dev jp hj).symm) he

theorem Synced.editing (h : Synced sb s) (hr : 0 < (s.ident ip).ref)
    (hv : (s.node ip).valid = true) : Editing sb s ip (inode sb s.disk) where
  geometry := h.geometry
  bufs := h.bufs
  node := by
    rw [← h.cache ip hr hv, ← hv]
  live := h.live ip hr hv
  fits := inode_fits _ _ _
  wf := h.wf

/-- **An inode has been changed and written**, and its entry is valid no more, or a copy of it. -/
theorem Synced.write (h : Synced sb s) (hr : 0 < (s.ident ip).ref) (hi : s.inum ip < sb.ninodes)
    (hwf : WellFormed sb (update (inode sb s.disk) (s.inum ip) n) disk)
    (hk : Kept sb (inode sb s.disk) (s.inum ip) s.disk disk) (hf : n.Fits) {m : Node}
    (hm : m.valid = true → m.d = n ∧ n.type ≠ 0) :
    Synced sb { s with disk := putInode sb disk (s.inum ip) n, node := update s.node ip m } ∧
    volume sb (putInode sb disk (s.inum ip) n) = update (volume sb s.disk) (s.inum ip)
      (if n.type = 0 then none else some (vnode disk n)) := by
  have hself : inode sb (putInode sb disk (s.inum ip) n) (s.inum ip) = n := by
    rw [inode_put h.geometry hk hf hi, update_self]
  have hother {jp : Slot} (hji : jp ≠ ip) (hj : 0 < (s.ident jp).ref)
      (hv : (update s.node ip m jp).valid = true) : (s.node jp).valid = true ∧
      inode sb (putInode sb disk (s.inum ip) n) (s.inum jp) = inode sb s.disk (s.inum jp) := by
    rw [update_of_ne hji] at hv
    rw [inode_put h.geometry hk hf (h.live jp hj hv).1,
      update_of_ne fun he => hji (h.slot_eq hj hr he)]
    exact ⟨hv, rfl⟩
  refine ⟨⟨h.geometry, h.bufs, wellFormed_put h.geometry hi hwf hk hf, h.unique, h.dev,
    fun jp hj hv => ?_, fun jp hj hv => ?_⟩, volume_put h.geometry hi hwf hk hf h.wf⟩
  · by_cases hji : jp = ip
    · subst hji
      have hv' : m.valid = true := by simpa using hv
      refine ⟨hi, ?_⟩
      rw [hself]
      exact (hm hv').2
    · obtain ⟨hv', he⟩ := hother hji hj hv
      have hl := h.live jp hj hv'
      refine ⟨hl.1, ?_⟩
      rw [he]
      exact hl.2
  · by_cases hji : jp = ip
    · subst hji
      have hv' : m.valid = true := by simpa using hv
      dsimp only
      rw [update_self, hself]
      exact (hm hv').1
    · obtain ⟨hv', he⟩ := hother hji hj hv
      dsimp only
      rw [update_of_ne hji, he]
      exact h.cache jp hj hv'

theorem Synced.commit (h : Synced sb s) (hr : 0 < (s.ident ip).ref) (hi : s.inum ip < sb.ninodes)
    (hwf : WellFormed sb (update (inode sb s.disk) (s.inum ip) n) disk)
    (hk : Kept sb (inode sb s.disk) (s.inum ip) s.disk disk) (hf : n.Fits) (ht : n.type ≠ 0) :
    Synced sb (s.put (putInode sb disk (s.inum ip) n) ip n) ∧
    volume sb (putInode sb disk (s.inum ip) n) =
      update (volume sb s.disk) (s.inum ip) (some (vnode disk n)) := by
  have hw := h.write hr hi hwf hk hf (m := ⟨true, n⟩) fun _ => ⟨rfl, ht⟩
  rwa [if_neg ht] at hw

theorem Synced.lock (h : Synced sb s) (l : Slot → Option Proc) : Synced sb { s with lock := l } :=
  ⟨h.geometry, h.bufs, h.wf, h.unique, h.dev, h.live, h.cache⟩

theorem Synced.addRef (h : Synced sb s) {c : Int}
    (hc : 0 < (s.ident ip).ref + c → 0 < (s.ident ip).ref) : Synced sb (s.addRef ip c) := by
  have hid (jp : Slot) : ((s.addRef ip c).ident jp).dev = (s.ident jp).dev ∧
      (s.addRef ip c).inum jp = s.inum jp ∧
      (0 < ((s.addRef ip c).ident jp).ref → 0 < (s.ident jp).ref) := by
    by_cases hj : jp = ip
    · subst hj
      simpa [State.addRef, State.setIdent, State.inum] using hc
    · simp [State.addRef, State.setIdent, State.inum, hj]
  refine ⟨h.geometry, h.bufs, h.wf, h.unique.addRef hc, fun jp hj => ?_, fun jp hj hv => ?_,
    fun jp hj hv => ?_⟩
  · rw [(hid jp).1]
    exact h.dev jp ((hid jp).2.2 hj)
  · rw [show ((s.addRef ip c).ident jp).inum = _ from (hid jp).2.1]
    exact h.live jp ((hid jp).2.2 hj) hv
  · rw [show ((s.addRef ip c).ident jp).inum = _ from (hid jp).2.1]
    exact h.cache jp ((hid jp).2.2 hj) hv

theorem Synced.recycle (h : Synced sb s) {inum : Nat} (hc : s.cached ROOTDEV inum = none) :
    Synced sb (s.recycle ip ROOTDEV inum) := by
  have hself : (s.recycle ip ROOTDEV inum).ident ip = ⟨ROOTDEV, inum, 1⟩ := by
    simp [State.recycle, State.setIdent, State.setNode]
  have hother {jp : Slot} (hj : jp ≠ ip) : (s.recycle ip ROOTDEV inum).ident jp = s.ident jp ∧
      (s.recycle ip ROOTDEV inum).node jp = s.node jp := by
    simp [State.recycle, State.setIdent, State.setNode, hj]
  have hvalid {jp : Slot} (hv : ((s.recycle ip ROOTDEV inum).node jp).valid = true) : jp ≠ ip := by
    rintro rfl
    simp [State.recycle, State.setIdent, State.setNode] at hv
  refine ⟨h.geometry, h.bufs, h.wf, h.unique.recycle hc, fun jp hj => ?_, fun jp hj hv => ?_,
    fun jp hj hv => ?_⟩
  · by_cases hji : jp = ip
    · subst hji
      rw [hself]
    · rw [(hother hji).1] at hj ⊢
      exact h.dev jp hj
  · have hji := hvalid hv
    rw [(hother hji).1] at hj ⊢
    rw [(hother hji).2] at hv
    exact h.live jp hj hv
  · have hji := hvalid hv
    rw [(hother hji).1] at hj ⊢
    rw [(hother hji).2] at hv ⊢
    exact h.cache jp hj hv

end Synced

end ZeptOS.Fs
