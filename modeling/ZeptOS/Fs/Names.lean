import ZeptOS.Fs.Files

/-!
# Directories as maps

A directory is a map from names to inode numbers, where names are what `namecmp` sees of them. This is
so as long as no two of its entries have one name, and `dirlink` and `sys_unlink` keep it so
(`directory_is_map`). A directory only grows when it has no empty entry.

`sys_unlink` is taken from where the parent is locked (`unlinkIn`): what leads there is `nameiparent`, which
`Fs.Path` is about. Each call is looked at alone, from a state in which the caches say what the disk says
(`Synced`); that calls of several processes on one directory come one after another is the inode lock's
work, and not covered here.
-/

namespace ZeptOS.Fs

open Lib Lib.Code Function

variable {t name : List UInt8} {v : Vnode} {j k n : Nat} {de : Dirent} {s : State} {E : Env}
  {b : Slot → Nat} {d : Dinode}

theorem namecmp_eq_zero {s : List UInt8} :
    namecmp s t = 0 ↔ cut DIRSIZ s = cut DIRSIZ t := strncmp_eq_zero

/-! ## The map -/

/-- The inode number under a name: that of the first entry with the name. -/
def Vnode.names (v : Vnode) (name : List UInt8) : Option Nat :=
  ((List.range v.slots).find? fun k =>
    (v.slot k).inum ≠ 0 ∧ namecmp name (v.slot k).name = 0).map fun k => (v.slot k).inum

def Vnode.Distinct (v : Vnode) : Prop :=
  ∀ i j, i < v.slots → j < v.slots → (v.slot i).inum ≠ 0 → (v.slot j).inum ≠ 0 →
    namecmp (v.slot i).name (v.slot j).name = 0 → i = j

def noEntry : Dirent := ⟨0, List.replicate DIRSIZ 0⟩

theorem noEntry_src : noEntry.src = .kernel fun _ => 0 := by
  refine congrArg Src.kernel (funext fun k => ?_)
  rw [show noEntry.encode = List.replicate 16 0 from rfl, List.getD_eq_getElem?_getD, List.getElem?_replicate]
  split <;> rfl

theorem names_of_first (hj : v.Holds name j) (hfirst : ∀ l, l < j → ¬v.Holds name l) :
    v.names name = some (v.slot j).inum := by
  rw [Vnode.names, List.find?_range_eq_some.mpr ⟨by simpa using hj.2, List.mem_range.mpr hj.1, fun l hl => ?_⟩]
  · rfl
  · simpa [Vnode.Holds, hl.trans hj.1, or_iff_not_imp_left] using hfirst l hl

theorem names_eq_none : v.names name = none ↔ ∀ j, ¬v.Holds name j := by
  rw [Vnode.names, Option.map_eq_none_iff, List.find?_range_eq_none]
  simp [Vnode.Holds, or_iff_not_imp_left]

theorem Vnode.Distinct.unique (hd : v.Distinct) {i : Nat} (hi : v.Holds name i)
    (hj : v.Holds name j) : i = j :=
  hd i j hi.1 hj.1 hi.2.1 hj.2.1 <|
    namecmp_eq_zero.mpr ((namecmp_eq_zero.mp hi.2.2).symm.trans (namecmp_eq_zero.mp hj.2.2))

theorem Vnode.Distinct.names_eq_some (hd : v.Distinct) :
    v.names name = some n ↔ ∃ j, v.Holds name j ∧ (v.slot j).inum = n := by
  have hof {j : Nat} (hj : v.Holds name j) : v.names name = some (v.slot j).inum :=
    names_of_first hj fun l hl hl' => Nat.ne_of_lt hl (hd.unique hl' hj)
  constructor
  · intro h
    obtain ⟨j, hj⟩ : ∃ j, v.Holds name j := by
      by_contra hno
      rw [names_eq_none.mpr (not_exists.mp hno)] at h
      cases h
    exact ⟨j, hj, Option.some.inj ((hof hj).symm.trans h)⟩
  · rintro ⟨j, hj, rfl⟩
    exact hof hj

theorem holds_setSlot (hdiv : 16 ∣ v.size) (hk : k ≤ v.slots) (hf : de.Fits) :
    (v.setSlot k de).Holds t j ↔
      if j = k then de.inum ≠ 0 ∧ namecmp t de.name = 0 else v.Holds t j := by
  have hslots : j < (v.setSlot k de).slots ↔ j < v.slots ∨ j = k := by
    show j < max v.size (16 * k + 16) / 16 ↔ j < v.size / 16 ∨ j = k
    have : k ≤ v.size / 16 := hk
    omega
  rw [Vnode.Holds, hslots, slot_setSlot hf]
  by_cases hj : j = k
  · simp [hj]
  · simp [hj, Vnode.Holds]

/-- **An entry is overwritten**, which was empty or had the name: then the name is what the entry says, and
the others are what they were. -/
theorem Vnode.Distinct.setSlot (hd : v.Distinct) (hdiv : 16 ∣ v.size) (hk : k ≤ v.slots) (hf : de.Fits)
    (hold : k < v.slots → (v.slot k).inum = 0 ∨ v.Holds name k)
    (hname : ∀ j, v.Holds name j → j = k) (hde : de.inum = 0 ∨ namecmp name de.name = 0) :
    (v.setSlot k de).Distinct ∧ ∀ t, (v.setSlot k de).names t =
      if namecmp name t = 0 then (if de.inum = 0 then none else some de.inum) else v.names t := by
  have hiff {t : List UInt8} {j : Nat} := holds_setSlot (t := t) (j := j) hdiv hk hf
  have hkey {t : List UInt8} (h0 : de.inum ≠ 0) : namecmp t de.name = 0 ↔ namecmp name t = 0 := by
    have := hde.resolve_left h0
    simp only [namecmp_eq_zero] at this ⊢
    rw [this, eq_comm]
  have hcong {t : List UInt8} (ht : namecmp name t = 0) {j : Nat} (hj : v.Holds t j) : v.Holds name j :=
    ⟨hj.1, hj.2.1, namecmp_eq_zero.mpr ((namecmp_eq_zero.mp ht).trans (namecmp_eq_zero.mp hj.2.2))⟩
  have hd' : (v.setSlot k de).Distinct := by
    intro i j hi hj hi0 hj0 hij
    have h₁ := hiff.mp ⟨hi, hi0, namecmp_eq_zero.mpr rfl⟩
    have h₂ := hiff.mp ⟨hj, hj0, hij⟩
    by_cases hik : i = k <;> by_cases hjk : j = k
    · rw [hik, hjk]
    · rw [if_pos hik] at h₁
      rw [if_neg hjk] at h₂
      exact absurd (hname j (hcong ((hkey h₁.1).mp h₁.2) h₂)) hjk
    · rw [if_neg hik] at h₁
      rw [if_pos hjk] at h₂
      exact absurd (hname i (hcong ((hkey h₂.1).mp h₂.2) h₁)) hik
    · rw [if_neg hik] at h₁
      rw [if_neg hjk] at h₂
      exact hd.unique h₁ h₂
  refine ⟨hd', fun t => Option.ext fun n => ?_⟩
  rw [hd'.names_eq_some]
  by_cases ht : namecmp name t = 0
  · rw [if_pos ht]
    constructor
    · rintro ⟨j, hj, rfl⟩
      rw [hiff] at hj
      rw [slot_setSlot hf]
      split at hj
      · next hjk => rw [if_pos hjk, if_neg hj.1]
      · next hjk => exact absurd (hname j (hcong ht hj)) hjk
    · intro hn
      have h0 : de.inum ≠ 0 := fun h0 => Option.some_ne_none n (hn.symm.trans (if_pos h0))
      refine ⟨k, hiff.mpr ((if_pos rfl).mpr ⟨h0, (hkey h0).mpr ht⟩), ?_⟩
      rw [slot_setSlot hf, if_pos rfl]
      exact Option.some.inj ((if_neg h0).symm.trans hn)
  · rw [if_neg ht, hd.names_eq_some]
    refine exists_congr fun j => ?_
    rw [hiff, slot_setSlot hf]
    by_cases hjk : j = k
    · subst hjk
      rw [if_pos rfl]
      refine iff_of_false (fun hc => ht ((hkey hc.1.1).mp hc.1.2)) fun hc => ?_
      rcases hold hc.1.1 with h0 | hh
      · exact hc.1.2.1 h0
      · exact ht (namecmp_eq_zero.mpr ((namecmp_eq_zero.mp hh.2.2).trans (namecmp_eq_zero.mp hc.1.2.2).symm))
    · rw [if_neg hjk, if_neg hjk]

/-! ## `dirlookup`, `dirlink` and `sys_unlink` -/

structure Directory (sb : Superblock) (s : State) (ip : Slot) : Prop where
  synced : Synced sb s
  trans : s.InTrans
  counts : ∀ jp, 0 ≤ (s.ident jp).ref
  held : 0 < (s.ident ip).ref
  valid : (s.node ip).valid = true
  type : (s.node ip).d.type = T_DIR
  whole : 16 ∣ (s.node ip).d.size
  distinct : (s.vnode ip).Distinct

/-- No entry is empty, the block for another is not there, and there is none to be had. -/
def NoRoom (sb : Superblock) (s : State) (ip : Slot) : Prop :=
  (∀ l, l < (s.vnode ip).slots → ((s.vnode ip).slot l).inum ≠ 0) ∧
  mapped s.disk (s.node ip).d ((s.node ip).d.size / BSIZE) = 0 ∧
  ∀ x, x < sb.size → used sb s.disk x = true

def IsMap (E : Env) (p : Proc) (sb : Superblock) (s : State) (ip : Slot) (m : List UInt8 → Option Nat) : Prop :=
  ∀ t, Does E p (dirlookup sb ip t) (fun r s' => r.map (fun x => s'.inum x.1) = m t) s

/-- The table of inodes has an entry left, or may be found full. -/
def Finds (E : Env) (b : Slot → Nat) : Prop := E.stops (.panic .igetNoInodes) ∨ ∃ jp, b jp = 0

theorem Finds.empty (h : Finds E b) (href : Refs b s) (he : s.empty = none) :
    E.stops (.panic .igetNoInodes) := by
  refine h.resolve_right ?_
  rintro ⟨jp, hj⟩
  simpa [href jp, hj] using List.find?_eq_none.mp he jp (List.mem_finRange jp)

section

variable {p : Proc} {sb : Superblock} {s' : State} {ip : Slot}

def State.refs (s : State) (jp : Slot) : Nat := (s.ident jp).ref.toNat

theorem Directory.refs (h : Directory sb s ip) : Refs s.refs s := fun jp => (Int.toNat_of_nonneg (h.counts jp)).symm

theorem Directory.moved (h : Directory sb s ip) (hs : Synced sb s') (hm : Moves s.refs s s')
    (hle : ∀ jp, (s.ident jp).ref ≤ (s'.ident jp).ref)
    (hvol : volume sb s'.disk (s.inum ip) = some v) (ht : v.type = T_DIR) (hdiv : 16 ∣ v.size)
    (hd : v.Distinct) : Directory sb s' ip ∧ s'.vnode ip = v := by
  have hpos : 0 < s.refs ip := Int.lt_toNat.mpr h.held
  have hr : 0 < (s'.ident ip).ref := Int.lt_of_lt_of_le h.held (hle ip)
  have hv : (s'.node ip).valid = true := hm.valid ip hpos h.valid
  have he : s'.vnode ip = v := hs.vnode_of_volume hr hv (by rw [hm.inum ip hpos, hvol])
  refine ⟨⟨hs, hm.inTrans h.trans, fun jp => Int.le_trans (h.counts jp) (hle jp), hr, hv, ?_, ?_, ?_⟩, he⟩
  · exact (congrArg Vnode.type he).trans ht
  · show 16 ∣ (s'.vnode ip).size
    rwa [he]
  · rwa [he]

theorem Directory.isMap (h : Directory sb s ip) (hE : Finds E s.refs) :
    IsMap E p sb s ip (s.vnode ip).names := by
  refine fun t => h.synced.does_dirlookup h.held h.valid h.refs (hE.empty h.refs) (.inl h.type) (.inl h.whole)
    (fun hno => ?_) fun j jp s' hj hfirst _ _ _ _ _ hi _ => ?_
  · rw [names_eq_none.mpr hno]
    rfl
  · rw [names_of_first hj hfirst, ← hi]
    rfl

theorem Directory.put (h : Directory sb s ip) {disk : Disk} {n : List UInt8}
    (hs : Synced sb (s.put disk ip d)) (hv : volume sb disk = update (volume sb s.disk) (s.inum ip)
      (some ((s.vnode ip).setSlot k de))) (hk : k ≤ (s.vnode ip).slots) (hf : de.Fits)
    (hold : k < (s.vnode ip).slots → ((s.vnode ip).slot k).inum = 0 ∨ (s.vnode ip).Holds n k)
    (hname : ∀ j, (s.vnode ip).Holds n j → j = k) (hde : de.inum = 0 ∨ namecmp n de.name = 0) :
    Directory sb (s.put disk ip d) ip ∧ (s.put disk ip d).vnode ip = (s.vnode ip).setSlot k de ∧
    ∀ t, ((s.put disk ip d).vnode ip).names t = if namecmp n t = 0 then
      (if de.inum = 0 then none else some de.inum) else (s.vnode ip).names t := by
  obtain ⟨hd, hnames⟩ := h.distinct.setSlot h.whole hk hf hold hname hde
  have hwhole : 16 ∣ ((s.vnode ip).setSlot k de).size := by
    have : 16 ∣ (s.vnode ip).size := h.whole
    rw [size_setSlot]
    omega
  obtain ⟨hdir, he⟩ := h.moved hs (.put _ s disk ip d) (fun _ => Int.le_refl _)
    ((congrFun hv _).trans (update_self ..)) h.type hwhole hd
  exact ⟨hdir, he, fun t => by rw [he, hnames t]⟩

/-! ## `sys_unlink` -/

def Vnode.Empty (v : Vnode) : Prop := ∀ k, 2 ≤ k → k < v.slots → (v.slot k).inum = 0

theorem Synced.does_isdirempty (h : Synced sb s) (hr : 0 < (s.ident ip).ref)
    (hv : (s.node ip).valid = true) (hdiv : 16 ∣ (s.node ip).d.size) {Q : Bool → State → Prop}
    (hq : ∀ r, (r = true ↔ (s.vnode ip).Empty) → Q r s) : Does E p (isdirempty sb ip) Q s := by
  have hend {k : Nat} (hprev : ∀ l, 2 ≤ l → l < k → ((s.vnode ip).slot l).inum = 0)
      (he : (s.node ip).d.size / 16 ≤ k) : Q true s :=
    hq true (iff_of_true rfl fun l h2 hl => hprev l h2 (Nat.lt_of_lt_of_le hl he))
  have hloop (fuel k : Nat) (hfuel : (s.node ip).d.size / 16 + 1 ≤ fuel + k) (hk : 2 ≤ k)
      (hprev : ∀ l, 2 ≤ l → l < k → ((s.vnode ip).slot l).inum = 0) :
      Does E p (isdiremptyFrom sb ip fuel (16 * k)) Q s := by
    induction fuel generalizing k with
    | zero => exact hend hprev (by omega)
    | succ fuel ih =>
      refine does_bind.2 (does_node ?_)
      by_cases hlt : 16 * k < (s.node ip).d.size
      · rw [if_pos hlt]
        refine does_bind.2 (does_readDirent h.bufs hlt (h.entry hr hv _) (.inl (by omega)) fun _ => ?_)
        rw [show Dirent.decode _ = (s.vnode ip).slot k from rfl]
        by_cases h0 : ((s.vnode ip).slot k).inum = 0
        · rw [if_neg (not_not.mpr h0)]
          refine ih (k + 1) (by omega) (by omega) fun l h2 hl => ?_
          rcases Nat.lt_succ_iff_lt_or_eq.mp hl with hl | rfl
          · exact hprev l h2 hl
          · exact h0
        · rw [if_pos h0]
          have hks : k < (s.node ip).d.size / 16 := by omega
          exact hq false (iff_of_false Bool.false_ne_true fun he => h0 (he k hk hks))
      · rw [if_neg hlt]
        exact hend hprev (by omega)
  exact does_bind.2 (does_node (hloop _ 2 (by omega) le_rfl fun l h2 hl => by omega))

theorem Synced.setNlink (h : Synced sb s) (hr : 0 < (s.ident ip).ref)
    (hv : (s.node ip).valid = true) (hn : n < 2 ^ 16) (hd : d = { (s.node ip).d with nlink := n }) :
    Synced sb (s.put (putInode sb s.disk (s.inum ip) d) ip d) ∧
    volume sb (putInode sb s.disk (s.inum ip) d) =
      update (volume sb s.disk) (s.inum ip) (some { s.vnode ip with nlink := n }) := by
  have hl := h.live ip hr hv
  have hc := h.cache ip hr hv
  have hwf : WellFormed sb (update (inode sb s.disk) (s.inum ip) d) s.disk := by
    rw [hd, hc]
    exact h.wf.setAttr rfl .rfl (h.wf.size _ hl.1) fun bn => h.wf.full _ bn hl
  have hfits : d.Fits := by
    rw [hd, hc]
    exact { inode_fits sb s.disk (s.inum ip) with nlink := hn }
  obtain ⟨hs, hvol⟩ := h.commit hr hl.1 hwf .refl hfits (by rw [hd, hc]; exact hl.2)
  exact ⟨hs, by rw [hvol, hd]; rfl⟩

/-- `ip->nlink--` -/
def decLink (n : Nat) : Nat := (n + (2 ^ 16 - 1)) % 2 ^ 16

/-- **A link goes**, in the copy of the inode and on the disk. -/
theorem Synced.does_decLink (h : Synced sb s) (hT : s.InTrans) (hr : 0 < (s.ident ip).ref)
    (hv : (s.node ip).valid = true) {α : Type} {k : FsM α} {Q : α → State → Prop}
    (hk : ∀ disk d, Synced sb (s.put disk ip d) → volume sb disk =
      update (volume sb s.disk) (s.inum ip) (some { s.vnode ip with nlink := decLink (s.node ip).d.nlink }) →
      Does E p k Q (s.put disk ip d)) :
    Does E p (modifyNode ip (fun d => { d with nlink := (d.nlink + (2 ^ 16 - 1)) % 2 ^ 16 }) >>= fun _ =>
      iupdate sb ip >>= fun _ => k) Q s := by
  obtain ⟨hs, hvol⟩ := h.setNlink hr hv (n := decLink (s.node ip).d.nlink) (Nat.mod_lt _ (by decide)) rfl
  exact does_update hT h.bufs (show s.node ip = ⟨true, (s.node ip).d⟩ by rw [← hv]) (hk _ _ hs hvol)

/-- `sys_unlink` has locked the parent of `name`: nothing else is locked, the parent has its links, and
the inode that the entry names, if there is one, is another one, with links of its own. -/
structure Unlinks (sb : Superblock) (p : Proc) (s : State) (ip : Slot) (name : List UInt8) : Prop where
  lock : s.lock ip = some p
  free : ∀ jp, jp ≠ ip → s.lock jp = none
  links : (s.ident ip).ref = 1 → (s.node ip).d.nlink ≠ 0
  child : ∀ j, (s.vnode ip).names name = some j → j ≠ s.inum ip ∧ ∃ w, volume sb s.disk j = some w ∧
    1 ≤ short w.nlink ∧ (w.type = T_DIR → 16 ∣ w.size ∧ ((s.ident ip).ref = 1 → (s.node ip).d.nlink ≠ 1))

def Unlinkable (vol : Nat → Option Vnode) (v : Vnode) (name : List UInt8) : Prop :=
  ¬(namecmp name dot = 0 ∨ namecmp name dotdot = 0) ∧
  ∃ j w, v.names name = some j ∧ vol j = some w ∧ (w.type = T_DIR → w.Empty)

def Unlinked (sb : Superblock) (s : State) (ip : Slot) (name : List UInt8) (r : Int) (s' : State) : Prop :=
  r = 0 ∧ Unlinkable (volume sb s.disk) (s.vnode ip) name ∧
    (∃ v, volume sb s'.disk (s.inum ip) = some v ∧ v.Distinct ∧
      ∀ t, v.names t = if namecmp name t = 0 then none else (s.vnode ip).names t) ∨
  r = -1 ∧ ¬Unlinkable (volume sb s.disk) (s.vnode ip) name ∧ s'.disk = s.disk

theorem Synced.does_unlinkBad (h : Synced sb s) (hT : s.InTrans) (href : Refs (bump b ip) s)
    (hlock : s.lock ip = some p) (hno : ¬Frees b s ip) {Q : Int → State → Prop}
    (hq : ∀ s', s'.disk = s.disk → Q (-1) s') : Does E p (unlinkBad sb ip) Q s := by
  refine does_bind.2 (h.does_iunlockput hT href hlock fun s' _ _ _ _ hd => ?_)
  rw [if_neg hno] at hd
  exact does_bind.2 (does_answer (fun _ => rfl) (hq _ hd))

/-- **The entry goes**, and what it named has one link less. -/
theorem Directory.does_unlinkEntry (h : Directory sb s ip) {jp : Slot} (hne : jp ≠ ip)
    (href : Refs (bump (bump b ip) jp) s) (hip : s.lock ip = some p) (hjp : s.lock jp = some p)
    (hvj : (s.node jp).valid = true) (hk : (s.vnode ip).Holds name k)
    (hlinks : b ip = 0 → (s.node ip).d.nlink ≠ if (s.node jp).d.type = T_DIR then 1 else 0) :
    Does E p (unlinkEntry sb ip jp (16 * k) (s.node jp).d.type) (fun r s' => r = 0 ∧
      ∃ v, volume sb s'.disk (s.inum ip) = some v ∧ v.Distinct ∧
        ∀ t, v.names t = if namecmp name t = 0 then none else (s.vnode ip).names t) s := by
  have hrj : 0 < (s.ident jp).ref := href.pos
  have hinum : s.inum jp ≠ s.inum ip := fun he => hne (h.synced.slot_eq hrj h.held he)
  have hlt : k < (s.node ip).d.size / 16 := hk.1
  unfold unlinkEntry
  rw [← noEntry_src]
  refine does_bind.2 (h.synced.does_writeSlot h.held h.valid h.trans (by omega) (fun disk d hs hv _ => ?_)
    fun r s'' _ _ _ _ hend _ => absurd hend (by omega))
  obtain ⟨hdir, he, hnames⟩ := h.put (n := name) hs hv (Nat.le_of_lt hk.1) ⟨by decide, List.length_replicate⟩
    (fun _ => .inr hk) (fun l hl => h.distinct.unique hl hk) (.inl rfl)
  rw [if_neg (not_not.mpr rfl)]
  -- what is left, with whatever links the directory has now
  have hrest (s₁ : State) (n : Nat) (hs₁ : Synced sb s₁) (hm : Moves (bump (bump b ip) jp) s s₁)
      (hid : s₁.ident = s.ident) (hlk : s₁.lock = s.lock)
      (hvol : volume sb s₁.disk (s.inum ip) = some { (s.put disk ip d).vnode ip with nlink := n })
      (hn : b ip = 0 → n ≠ 0) : Does E p (do
        iunlockput sb ip
        modifyNode jp fun d => { d with nlink := (d.nlink + (2 ^ 16 - 1)) % 2 ^ 16 }
        iupdate sb jp
        iunlockput sb jp
        endOp
        (pure 0 : FsM Int)) (fun r s' => r = 0 ∧ ∃ v, volume sb s'.disk (s.inum ip) = some v ∧ v.Distinct ∧
          ∀ t, v.names t = if namecmp name t = 0 then none else (s.vnode ip).names t) s₁ := by
    have href₁ : Refs (bump (bump b jp) ip) s₁ := fun kp => by rw [hid, bump_comm, href kp]
    have hip₁ : volume sb s₁.disk (s₁.inum ip) = some { (s.put disk ip d).vnode ip with nlink := n } := by
      rw [State.inum, hid, hvol]
    have hkeep : ¬Frees (bump b jp) s₁ ip := by
      rintro ⟨hb, hv₁, h0⟩
      have hnl : (s₁.node ip).d.nlink = n :=
        congrArg Vnode.nlink (hs₁.vnode_of_volume href₁.pos hv₁ hip₁)
      rw [bump_of_ne hne.symm] at hb
      exact hn hb (hnl ▸ h0)
    refine does_bind.2 (hs₁.does_iunlockput (hm.inTrans h.trans) href₁ (hlk ▸ hip) ?_)
    intro s₂ hs₂ hr₂ hm₂ hl₂ hd₂
    rw [if_neg hkeep] at hd₂
    have hpos : 0 < bump b jp jp := bump_pos b jp
    have hin₂ : s₂.inum jp = s.inum jp := (hm₂.inum jp hpos).trans (by rw [State.inum, hid])
    refine hs₂.does_decLink (hm₂.inTrans (hm.inTrans h.trans)) hr₂.pos
      (hm₂.valid jp hpos (hm.valid jp (bump_pos _ jp) hvj)) fun disk₃ d₃ hs₃ hv₃ => ?_
    refine does_bind.2 (hs₃.does_iunlockput (b := b) (hm₂.inTrans (hm.inTrans h.trans)) hr₂ ?_ ?_)
    · show s₂.lock jp = some p
      rw [hl₂, update_of_ne hne, hlk, hjp]
    · intro s₄ _ _ _ _ hd₄
      have hother : volume sb disk₃ (s.inum ip) = some { (s.put disk ip d).vnode ip with nlink := n } := by
        rw [hv₃, hin₂, update_of_ne hinum.symm, hd₂, hvol]
      have hlast : volume sb s₄.disk (s.inum ip) = volume sb disk₃ (s.inum ip) := by
        split at hd₄
        · exact (congrFun hd₄ _).trans (update_of_ne (hin₂.trans_ne hinum).symm _ _)
        · exact congrArg (volume sb · (s.inum ip)) hd₄
      refine does_bind.2 (does_answer (fun _ => rfl) ⟨rfl, _, hlast.trans hother, hdir.distinct, hnames⟩)
  have hv₁ : volume sb disk (s.inum ip) = some ((s.put disk ip d).vnode ip) := by
    rw [hv, update_self, he]
  have hnl : ((s.put disk ip d).node ip).d.nlink = (s.node ip).d.nlink := congrArg Vnode.nlink he
  have hm := Moves.put (bump (bump b ip) jp) s disk ip d
  refine does_bind.2 (does_when (fun ht => ?_) fun ht => ?_)
  · rw [if_pos ht] at hlinks
    refine cast (by rw [bind_pure_unit]) (hdir.synced.does_decLink (p := p) (k := pure ()) hdir.trans hdir.held
      hdir.valid fun disk' d' hs' hv' => ?_)
    refine hrest _ _ hs' (hm.trans (.put _ _ disk' ip d')) rfl rfl ((congrFun hv' _).trans (update_self ..))
      fun h0 hz => hlinks h0 ?_
    have hfits := (inode_fits sb s.disk (s.inum ip)).nlink
    rw [← h.synced.cache ip h.held h.valid] at hfits
    rw [hnl] at hz
    unfold decLink at hz
    omega
  · rw [if_neg ht] at hlinks
    exact hrest _ _ hs hm rfl rfl hv₁ fun h0 => hnl.trans_ne (hlinks h0)

/-- **`sys_unlink`**, once the parent is locked. -/
theorem Directory.does_unlinkIn (h : Directory sb s ip) (hE : Finds E s.refs) (hu : Unlinks sb p s ip name) :
    Does E p (unlinkIn sb ip name) (Unlinked sb s ip name) s := by
  obtain ⟨b, hb⟩ : ∃ b, bump b ip = s.refs := by
    refine ⟨update s.refs ip (s.refs ip - 1), ?_⟩
    have : 0 < s.refs ip := Int.lt_toNat.mpr h.held
    rw [bump, update_self, update_idem, Nat.sub_add_cancel this, update_eq_self]
  have href : Refs (bump b ip) s := hb ▸ h.refs
  have hone : b ip = 0 → (s.ident ip).ref = 1 := fun h0 => by rw [href ip, bump_self, h0]; rfl
  have hkeep {s' : State} (he : s'.vnode ip = s.vnode ip) : ¬Frees b s' ip := by
    rintro ⟨h0, -, hz⟩
    exact hu.links (hone h0) ((congrArg Vnode.nlink he).symm.trans hz)
  have hbad (hno : ¬Unlinkable (volume sb s.disk) (s.vnode ip) name) :
      Does E p (unlinkBad sb ip) (Unlinked sb s ip name) s :=
    h.synced.does_unlinkBad h.trans href hu.lock (hkeep rfl) fun s' hd => .inr ⟨rfl, hno, hd⟩
  unfold unlinkIn
  by_cases hdot : namecmp name dot = 0 ∨ namecmp name dotdot = 0
  · rw [if_pos hdot]
    exact hbad fun hc => hc.1 hdot
  rw [if_neg hdot]
  refine does_bind.2 (h.synced.does_dirlookup h.held h.valid h.refs (hE.empty h.refs) (.inl h.type) (.inl h.whole)
    (fun hno => hbad ?_) fun k jp s₁ hk hfirst hs₁ hr₁ hm₁ hl₁ hd₁ hi₁ _ => ?_)
  · rintro ⟨-, j, w, hj, -⟩
    rw [names_eq_none.mpr hno] at hj
    cases hj
  have hname : (s.vnode ip).names name = some (s₁.inum jp) := by rw [names_of_first hk hfirst, hi₁]
  obtain ⟨hself, w, hw, hpos, hdirw⟩ := hu.child _ hname
  have hip : 0 < s.refs ip := Int.lt_toNat.mpr h.held
  have hne : jp ≠ ip := by
    rintro rfl
    exact hself (hm₁.inum jp hip)
  refine does_bind.2 (hs₁.does_ilock hr₁.pos (by rw [hl₁, hu.free jp hne])
    (by rw [hd₁]; exact (live_of_volume hw).1) ?_)
  intro s₂ he₂ hs₂ hm₂
  have hid : s₂.ident = s₁.ident := by rw [he₂]
  have hdisk : s₂.disk = s.disk := by rw [he₂, hd₁]
  have hr₂ : Refs (bump s.refs jp) s₂ := fun kp => by rw [hid, hr₁ kp]
  have hip₂ : s₂.lock ip = some p := by rw [he₂, ← hu.lock, ← hl₁]; exact update_of_ne hne.symm _ _
  have hjp₂ : s₂.lock jp = some p := by rw [he₂]; exact update_self ..
  have hvj : (s₂.node jp).valid = true := by simp [he₂]
  have hm := hm₁.trans (hm₂ s.refs)
  have hle (kp : Slot) : (s.ident kp).ref ≤ (s₂.ident kp).ref := by
    rw [hr₂ kp, h.refs kp]
    exact Int.ofNat_le.mpr (le_bump s.refs jp kp)
  obtain ⟨hdir, hvn⟩ := h.moved hs₂ hm hle (by rw [hdisk, h.synced.volume_slot h.held h.valid]) h.type h.whole
    h.distinct
  have hwn : s₂.vnode jp = w := hs₂.vnode_of_volume hr₂.pos hvj (by rw [hdisk, State.inum, hid, hw])
  have hnl : (s₂.node jp).d.nlink = w.nlink := congrArg Vnode.nlink hwn
  have hty : (s₂.node jp).d.type = w.type := congrArg Vnode.type hwn
  have hrem : Does E p (removable sb jp (s₂.node jp).d.type)
      (fun r s' => s' = s₂ ∧ (r = true ↔ (w.type = T_DIR → w.Empty))) s₂ := by
    rw [hty]
    unfold removable
    by_cases hd : w.type = T_DIR
    · rw [if_pos hd]
      have hdiv : 16 ∣ (s₂.vnode jp).size := hwn.symm ▸ (hdirw hd).1
      refine hs₂.does_isdirempty hr₂.pos hvj hdiv fun r hr => ⟨rfl, hr.trans ?_⟩
      rw [hwn]
      exact ⟨fun he _ => he, fun he => he hd⟩
    · rw [if_neg hd]
      exact ⟨rfl, iff_of_true rfl fun hc => absurd hc hd⟩
  refine does_bind.2 (does_node ?_)
  rw [if_neg (by rw [hnl]; omega)]
  refine hrem.call ?_
  rintro r s₂ ⟨rfl, hr⟩
  cases r with
  | false =>
    rw [if_pos rfl]
    have hno : ¬Frees s.refs s₂ jp := by
      rintro ⟨-, -, hz⟩
      rw [hnl] at hz
      rw [hz] at hpos
      exact absurd hpos (by decide)
    refine does_bind.2 (hs₂.does_iunlockput (hm.inTrans h.trans) hr₂ hjp₂ fun s₃ hs₃ hr₃ hm₃ hl₃ hd₃ => ?_)
    rw [if_neg hno] at hd₃
    obtain ⟨-, hvn₃⟩ := h.moved hs₃ (hm.trans hm₃) (fun kp => by rw [hr₃ kp, h.refs kp])
      (by rw [hd₃, hdisk, h.synced.volume_slot h.held h.valid]) h.type h.whole h.distinct
    refine hs₃.does_unlinkBad (hm₃.inTrans (hm.inTrans h.trans)) (hb ▸ hr₃)
      (by rw [hl₃, update_of_ne hne.symm, hip₂]) (hkeep hvn₃) fun s' hd => .inr ⟨rfl, ?_, by rw [hd, hd₃, hdisk]⟩
    rintro ⟨-, j, w', hj, hw', he⟩
    cases hname.symm.trans hj
    cases hw.symm.trans hw'
    exact Bool.false_ne_true (hr.mpr he)
  | true =>
    rw [if_neg Bool.true_eq_false.mp]
    have hk₂ : (s₂.vnode ip).Holds name k := hvn.symm ▸ hk
    refine (hdir.does_unlinkEntry hne (hb ▸ hr₂) hip₂ hjp₂ hvj hk₂ fun h0 => ?_).mono ?_
    · have hnd : (s₂.node ip).d.nlink = (s.node ip).d.nlink := congrArg Vnode.nlink hvn
      rw [hty, hnd]
      split
      · next hd => exact (hdirw hd).2 (hone h0)
      · exact hu.links (hone h0)
    · rintro r s' ⟨rfl, v, hv, hd, hn⟩
      rw [hvn] at hn
      exact .inl ⟨rfl, ⟨hdot, _, w, hname, hw, hr.mp rfl⟩, v, by rw [← hm.inum ip hip, hv], hd, hn⟩

/-- **A directory is a map.** -/
theorem directory_is_map (h : Directory sb s ip) (hE : Finds E s.refs)
    (name : List UInt8) {inum : Nat} (h0 : 0 < inum) (hlt : inum < 2 ^ 16) :
    IsMap E p sb s ip (s.vnode ip).names ∧
    Does E p (dirlink sb ip name inum) (fun r s' => Directory sb s' ip ∧ if r = true then
        (s.vnode ip).names name = none ∧ ¬NoRoom sb s ip ∧
        IsMap E p sb s' ip (fun t => if namecmp name t = 0 then some inum else (s.vnode ip).names t) ∧
        ∃ k, s'.vnode ip = (s.vnode ip).setSlot k (newEntry name inum) ∧
          (∀ l, l < k → ((s.vnode ip).slot l).inum ≠ 0) ∧ if k < (s.vnode ip).slots then
            ((s.vnode ip).slot k).inum = 0 ∧ (s'.vnode ip).size = (s.vnode ip).size
          else 16 * k = (s.vnode ip).size
      else IsMap E p sb s' ip (s.vnode ip).names ∧ (s'.vnode ip).size = (s.vnode ip).size ∧
        ((s.vnode ip).names name ≠ none ∨
          (∀ l, l < (s.vnode ip).slots → ((s.vnode ip).slot l).inum ≠ 0) ∧
          ((∀ x, x < sb.size → used sb s'.disk x = true) ∨
            (s.vnode ip).size + 16 > MAXFILE * BSIZE))) s ∧
    (Unlinks sb p s ip name → Does E p (unlinkIn sb ip name) (Unlinked sb s ip name) s) := by
  refine ⟨h.isMap hE, ?_, h.does_unlinkIn hE⟩
  · refine h.synced.does_dirlink h.held h.valid h.trans h.refs (hE.empty h.refs) (.inl h.type) (.inl h.whole)
      (fun k disk d hno hk hfirst hfree hs hv hroom => ?_) fun s' hs href hm _ hv hwhy => ?_
    · have hdiv : 16 ∣ (s.vnode ip).size := h.whole
      have hk' : 16 * k ≤ (s.vnode ip).size := hk
      have hfree' (hc : k < (s.vnode ip).size / 16) : ((s.vnode ip).slot k).inum = 0 :=
        hfree (show 16 * k < (s.vnode ip).size by omega)
      obtain ⟨hdir, he, hnames⟩ := h.put (n := name) hs hv (show k ≤ (s.vnode ip).size / 16 by omega)
        (newEntry_fits name inum) (fun hc => .inl (hfree' hc)) (fun j hj => absurd hj (hno j))
        (.inr (namecmp_eq_zero.mpr (cut_strncpy _ _).symm))
      rw [show (newEntry name inum).inum = inum from Nat.mod_eq_of_lt hlt, if_neg (Nat.ne_of_gt h0)] at hnames
      refine ⟨hdir, (if_pos rfl).mpr ⟨names_eq_none.mpr hno, fun hfull => ?_,
        (funext hnames) ▸ hdir.isMap hE, k, he, hfirst, ?_⟩⟩
      · have hend : 16 * k = (s.vnode ip).size := by
          by_contra hne
          have hc : k < (s.vnode ip).size / 16 := by omega
          exact hfull.1 k hc (hfree' hc)
        exact hroom hfull.2.2 (hend ▸ hfull.2.1)
      · rw [he, size_setSlot]
        by_cases hc : k < (s.vnode ip).size / 16
        · exact (if_pos hc).mpr ⟨hfree' hc, by omega⟩
        · exact (if_neg hc).mpr (by omega)
    · obtain ⟨hdir, he⟩ := h.moved hs hm (fun jp => by rw [href jp, h.refs jp])
        ((congrFun hv _).trans (h.synced.volume_slot h.held h.valid)) h.type h.whole h.distinct
      have hE' : Finds E s'.refs := by
        rwa [show s'.refs = s.refs from funext fun jp => by rw [State.refs, href jp, Int.toNat_natCast]]
      refine ⟨hdir, (if_neg Bool.false_ne_true).mpr ⟨he ▸ hdir.isMap hE', by rw [he], hwhy.imp_left ?_⟩⟩
      rintro ⟨j, hj⟩ hno
      exact names_eq_none.mp hno j hj

/-! ### A small tree

The root has an `a`, which is a directory and has a `b`, which is a file. Before the entry for `b` there is
an empty one.
-/

def small : Superblock := ⟨7, 5, 4, 0, 0, 0, 1⟩

/-- The byte at `o` of the `i`-th inode: a type, `nlink`, `size` and one address. -/
def smallInode (i o : Nat) : UInt8 :=
  match i, o with
  | 1, 0 | 2, 0 => 1
  | 3, 0 => 2
  | 1, 6 => 2
  | 2, 6 | 3, 6 => 1
  | 1, 8 => 48
  | 2, 8 => 64
  | 3, 8 => 5
  | 1, 12 | 2, 12 | 3, 12 => UInt8.ofNat (i + 1)
  | _, _ => 0

def smallEntry (i o : Nat) : UInt8 :=
  match i, o with
  | _, 0 => UInt8.ofNat i
  | _, 2 | _, 18 | _, 19 => 0x2e
  | _, 16 => 1
  | 1, 32 => 2
  | 1, 34 => 0x61
  | 2, 48 => 3
  | 2, 50 => 0x62
  | _, _ => 0

def smallDisk (b : Nat) : Block := fun o =>
  match b with
  | 0 => smallInode (o / 256) (o % 256)
  | 1 => if o = 0 then 0x1f else 0
  | 2 | 3 => smallEntry (b - 1) o
  | _ => 0

/-- The first process, with the root for its current directory, has locked `a`. -/
def smallState : State :=
  { boot smallDisk with
    begun := fun p => if p = 0 then 1 else 0
    ident := fun ip => if ip = 0 then ⟨ROOTDEV, 1, 1⟩ else if ip = 1 then ⟨ROOTDEV, 2, 1⟩ else ⟨0, 0, 0⟩
    node := fun ip => ⟨ip = 1, inode small smallDisk 2⟩
    lock := fun ip => if ip = 1 then some 0 else none }

theorem small_synced : Synced small smallState where
  geometry := ⟨by decide, by decide, by decide, by decide, by decide⟩
  bufs _ := rfl
  wf := Checked.wellFormed ⟨by decide, by decide +kernel, by decide +kernel, by decide +kernel, by decide +kernel,
    by decide +kernel⟩
  unique := by
    unfold Unique
    decide +kernel
  dev := by decide +kernel
  live ip _ hv := by
    obtain rfl : ip = 1 := of_decide_eq_true hv
    exact ⟨by decide, by decide +kernel⟩
  cache ip _ hv := by
    obtain rfl : ip = 1 := of_decide_eq_true hv
    rfl

theorem small_directory : Directory small smallState 1 where
  synced := small_synced
  trans := ⟨0, by decide⟩
  counts := by decide +kernel
  held := by decide
  valid := rfl
  type := by decide +kernel
  whole := by decide +kernel
  distinct := by
    have hslots : (smallState.vnode 1).slots = 4 := by decide +kernel
    have h : ∀ i < 4, ∀ j < 4, ((smallState.vnode 1).slot i).inum ≠ 0 → ((smallState.vnode 1).slot j).inum ≠ 0 →
      namecmp ((smallState.vnode 1).slot i).name ((smallState.vnode 1).slot j).name = 0 → i = j := by
      decide +kernel
    intro i j hi hj
    rw [hslots] at hi hj
    exact h i hi j hj

/-- `c` is entered into `a`, in the empty place, or `b` is taken out of it. -/
theorem directory_is_map_small :
    Does anyMemory 0 (dirlookup small 1 [0x62]) (fun r s' => r.map (fun x => s'.inum x.1) = some 3) smallState ∧
    Does anyMemory 0 (dirlink small 1 [0x63] 3) (fun r s' => r = true ∧ (s'.vnode 1).size = 64 ∧
      IsMap anyMemory 0 small s' 1 fun t =>
        if namecmp [0x63] t = 0 then some 3 else (smallState.vnode 1).names t) smallState ∧
    Does anyMemory 0 (unlinkIn small 1 [0x62]) (fun r s' => r = 0 ∧ ∃ v, volume small s'.disk 2 = some v ∧
      v.names [0x62] = none ∧ v.names dotdot = some 1) smallState := by
  have hE : Finds anyMemory smallState.refs := .inr ⟨2, by decide⟩
  have hb : (smallState.vnode 1).names [0x62] = some 3 := by decide +kernel
  have hempty : ((smallState.vnode 1).slot 2).inum = 0 := by decide +kernel
  obtain ⟨w, hw, hn, ht⟩ : ∃ w, volume small smallDisk 3 = some w ∧ w.nlink = 1 ∧ w.type = T_FILE :=
    ⟨_, if_pos ⟨by decide, by decide +kernel⟩, by decide +kernel, by decide +kernel⟩
  have hfile : w.type ≠ T_DIR := by rw [ht]; decide
  refine ⟨?_, ?_, ?_⟩
  · have h := (directory_is_map (p := 0) small_directory hE [0x62] (show 0 < 3 by decide) (by decide)).1 [0x62]
    rwa [hb] at h
  · refine (directory_is_map (p := 0) small_directory hE [0x63] (show 0 < 3 by decide) (by decide)).2.1.mono ?_
    rintro r s' ⟨-, h⟩
    split at h
    · next hr =>
      obtain ⟨-, -, hmap, k, -, hfirst, hk⟩ := h
      have hsize : (smallState.vnode 1).size = 64 := by decide +kernel
      have hle : k ≤ 2 := not_lt.mp fun hlt => hfirst 2 hlt hempty
      rw [if_pos (by rw [Vnode.slots, hsize]; omega), hsize] at hk
      exact ⟨hr, hk.2, hmap⟩
    · obtain ⟨-, -, hno | ⟨hfull, -⟩⟩ := h
      · exact absurd (by decide +kernel) hno
      · exact absurd hempty (hfull 2 (by decide +kernel))
  · refine ((directory_is_map (p := 0) small_directory hE [0x62] (show 0 < 3 by decide) (by decide)).2.2
      ⟨rfl, by decide +kernel, fun _ => by decide +kernel, fun j hj => ?_⟩).mono ?_
    · obtain rfl : j = 3 := Option.some.inj (hj.symm.trans hb)
      exact ⟨by decide, w, hw, by rw [hn]; decide, fun hd => absurd hd hfile⟩
    · rintro r s' (⟨rfl, -, v, hv, -, hnames⟩ | ⟨-, hno, -⟩)
      · refine ⟨rfl, v, hv, by rw [hnames, if_pos (by decide)], ?_⟩
        rw [hnames, if_neg (by decide)]
        decide +kernel
      · exact absurd ⟨by decide, 3, w, hb, hw, fun hd => absurd hd hfile⟩ hno

end

end ZeptOS.Fs
