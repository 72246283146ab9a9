import ZeptOS.Fs.Dir

/-!
# Files as arrays of bytes

What a caller of `fs.c` may rely on, when it runs alone. The functions that change an inode keep the
blocks owned, wherever they stop (`ownership_kept`); and a file is an array of bytes that `writei` overwrites
and `readi` answers (`file_is_array`). The amount that `readi` answers is what there is of what was
asked for, but nothing at all if the end of that is not a 32-bit number (`clip`).

`tiny` is a disk of seven blocks on which the results can be tried.
-/

namespace ZeptOS.Fs

open Lib Lib.Code Function

variable {sb : Superblock} {disk : Disk} {n off size : Nat}

/-! ## A small disk -/

def tiny : Superblock := ⟨7, 5, 2, 0, 0, 0, 1⟩

def tinyFile : Dinode :=
  { Dinode.zero with type := T_FILE, nlink := 1, size := BSIZE, addrs := fun k => if k = 0 then 2 else 0 }

def tinyDisk : Disk :=
  putInode tiny (mark tiny (mark tiny (mark tiny (fun _ => Bytes.fill 0) 0) 1) 2) 1 tinyFile

/-- The first process has begun a transaction, and entry 0 is for the file. -/
def tinyState : State :=
  { boot tinyDisk with begun := fun _ => 1, node := fun ip => ⟨ip = 0, tinyFile⟩ }

theorem tinyFile_fits : tinyFile.Fits where
  type := by decide
  major := by decide
  minor := by decide
  nlink := by decide
  size := by decide
  addrs k := by
    show (if k = 0 then 2 else 0) < _
    split <;> decide
  zero k hk := if_neg (by omega)

/-- The places of the inodes on a disk that hold a block. -/
def places (sb : Superblock) (disk : Disk) : List (Nat × Nat) :=
  ((List.range sb.ninodes).filter fun i => (inode sb disk i).type ≠ 0).flatMap fun i =>
    ((List.range NPLACE).filter fun k => entry disk (inode sb disk i) k ≠ 0).map (i, ·)

/-- What has to be looked at to tell that a disk is well formed. -/
structure Checked (sb : Superblock) (disk : Disk) : Prop where
  pos : 0 < sb.datastart
  area : ∀ x ∈ places sb disk, sb.datastart ≤ entry disk (inode sb disk x.1) x.2 ∧
    entry disk (inode sb disk x.1) x.2 < sb.size
  once : ((places sb disk).map fun x => entry disk (inode sb disk x.1) x.2).Nodup
  bits : ∀ b < sb.size, used sb disk b = true ↔
    b < sb.datastart ∨ b ∈ (places sb disk).map fun x => entry disk (inode sb disk x.1) x.2
  size : ∀ i < sb.ninodes, (inode sb disk i).size ≤ MAXFILE * BSIZE
  full : ∀ i < sb.ninodes, (inode sb disk i).type ≠ 0 → ∀ bn < (inode sb disk i).size / BSIZE + 1,
    bn * BSIZE < (inode sb disk i).size → mapped disk (inode sb disk i) bn ≠ 0

theorem mem_places {x : Nat × Nat} : x ∈ places sb disk ↔
    (Live sb (inode sb disk) x.1 ∧ x.2 < NPLACE) ∧ entry disk (inode sb disk x.1) x.2 ≠ 0 := by
  obtain ⟨i, k⟩ := x
  simp [places, Live, and_assoc]

theorem Checked.wellFormed (h : Checked sb disk) : WellFormed sb (inode sb disk) disk where
  owned := by
    refine ⟨h.pos, fun x hx h0 => h.area x (mem_places.mpr ⟨hx, h0⟩), fun x y hx hy he h0 => ?_,
      fun b hb => (h.bits b hb).trans ?_⟩
    · exact List.inj_on_of_nodup_map h.once (mem_places.mpr ⟨hx, h0⟩)
        (mem_places.mpr ⟨hy, fun hy0 => h0 (he.trans hy0)⟩) he
    · have := h.pos
      simp only [List.mem_map, mem_places]
      constructor
      · rintro (hlt | ⟨x, hx, rfl⟩)
        · exact .inl hlt
        · exact .inr ⟨x, hx.1, rfl⟩
      · rintro (hlt | ⟨x, hx, rfl⟩)
        · exact .inl hlt
        · by_cases h0 : entry disk (inode sb disk x.1) x.2 = 0
          · exact .inl (by omega)
          · exact .inr ⟨x, ⟨hx, h0⟩, rfl⟩
  size := h.size
  full i bn hl hbn := h.full i hl.1 hl.2 bn
    (Nat.lt_succ_of_le ((Nat.le_div_iff_mul_le (by decide)).mpr (Nat.le_of_lt hbn))) hbn

theorem tinyState_inTrans : tinyState.InTrans := ⟨0, by decide⟩

theorem tiny_synced : Synced tiny tinyState where
  geometry := ⟨by decide, by decide, by decide, by decide, by decide⟩
  bufs _ := rfl
  wf := Checked.wellFormed ⟨by decide, by decide +kernel, by decide +kernel, by decide +kernel,
    by decide +kernel, by decide +kernel⟩
  unique := boot_unique tinyDisk
  dev := by decide +kernel
  live ip _ hv := by
    obtain rfl : ip = 0 := of_decide_eq_true hv
    exact ⟨by decide, by decide +kernel⟩
  cache ip _ hv := by
    obtain rfl : ip = 0 := of_decide_eq_true hv
    exact (inode_putInode_self tinyFile_fits).symm

/-! ## Ownership -/

/-- The run may stop, but not because the blocks are in disorder. -/
def blocksInOrder : Env :=
  ⟨fun e => e ≠ .panic .freeingFree ∧ e ≠ .panic .bmapRange, fun _ _ _ => True⟩

section

variable {E : Env} {p : Proc} {s : State} {ip : Slot}

/-- **The blocks stay owned.** Whatever the functions meet on their way, a full disk or a user's
memory that cannot be read, they neither free a free block nor ask for one that no file has, and they
leave the disk well formed. -/
theorem ownership_kept (h : Synced sb s) (hT : s.InTrans) (hpos : ∀ ip, 0 ≤ (s.ident ip).ref) :
    (∀ type, type ≠ 0 → type < 2 ^ 16 →
      Does blocksInOrder p (ialloc sb ROOTDEV type) (fun _ s' => Synced sb s') s) ∧
    ∀ ip, 0 < (s.ident ip).ref → Does blocksInOrder p (iput sb ip) (fun _ s' => Synced sb s') s ∧
      ((s.node ip).valid = true →
        (∀ src off n, Does blocksInOrder p (writei sb ip src off n) (fun _ s' => Synced sb s') s) ∧
        Does blocksInOrder p (itrunc sb ip) (fun _ s' => Synced sb s') s ∧
        ∀ name inum, Does blocksInOrder p (dirlink sb ip name inum) (fun _ s' => Synced sb s') s) := by
  have href : Refs (fun ip => (s.ident ip).ref.toNat) s := fun ip => (Int.toNat_of_nonneg (hpos ip)).symm
  have hE : blocksInOrder.stops (.panic .igetNoInodes) := ⟨nofun, nofun⟩
  refine ⟨fun type ht ht' => ?_, fun ip hr => ⟨?_, fun hv => ⟨fun src off n => ?_, ?_, fun name inum => ?_⟩⟩⟩
  · exact h.does_ialloc hT href hE ht ht' (fun _ => h) fun _ _ _ _ _ _ hs _ _ _ _ _ => hs
  · have href' : Refs (bump (fun jp => if jp = ip then (s.ident ip).ref.toNat - 1 else
        (s.ident jp).ref.toNat) ip) s := by
      intro jp
      by_cases hj : jp = ip
      · subst hj
        rw [bump_self, if_pos rfl]
        omega
      · rw [bump_of_ne hj, if_neg hj]
        exact href jp
    have hwait : blocksInOrder.stops .wait := ⟨nofun, nofun⟩
    exact h.does_iput hT href' (fun _ => .inr hwait) fun _ hs _ _ _ _ => hs
  · refine (h.does_writei hT hr hv src off n).mono fun r s' hw => ?_
    unfold WriteDone at hw
    split at hw
    · obtain ⟨tot, disk, d, data, stray, -, rfl, hw⟩ := hw
      exact hw.synced
    · rw [hw.2]
      exact h
  · exact h.does_itrunc hT hr hv fun _ hs _ => hs
  · exact h.does_dirlink hr hv hT href (fun _ => hE) (.inr ⟨nofun, nofun⟩) (.inr ⟨⟨nofun, nofun⟩, nofun, nofun⟩)
      (fun _ _ _ _ _ _ _ hs _ _ => hs) fun _ hs _ _ _ _ _ => hs

/-- On the small disk. -/
theorem ownership_kept_tiny :
    Does blocksInOrder 0 (writei tiny 0 (.user 0) 0 (3 * BSIZE)) (fun _ s' => Synced tiny s') tinyState ∧
    Does blocksInOrder 0 (itrunc tiny 0) (fun _ s' => Synced tiny s') tinyState := by
  have hpos (ip : Slot) : 0 ≤ (tinyState.ident ip).ref := by
    show 0 ≤ (if ip = 0 then (⟨ROOTDEV, ROOTINO, 1⟩ : Ident) else ⟨0, 0, 0⟩).ref
    split <;> decide
  have hkept := ownership_kept (p := 0) tiny_synced tinyState_inTrans hpos
  have hfile := (hkept.2 0 (by decide)).2 rfl
  exact ⟨hfile.1 _ _ _, hfile.2.1⟩

/-! ## Contents -/

def clip (size off n : Nat) : Nat := if 2 ^ 32 ≤ off + n then 0 else min n (size - off)

theorem readLen_eq_clip (hoff : off < 2 ^ 32) (hn : n < 2 ^ 32) :
    readLen size off n = clip size off n := by
  unfold readLen clip
  by_cases hc : 2 ^ 32 ≤ off + n
  · rw [if_pos hc, if_pos (.inr (by omega))]
  · rw [if_neg hc, Nat.mod_eq_of_lt (by omega)]
    split
    · omega
    · rfl

theorem lt_of_clip {i : Nat} (h : i < clip size off n) : off + i < size := by
  unfold clip at h
  split at h <;> omega

/-- **What `readi` answers of the file**, wherever it is asked to begin and for however much. -/
def ReadsAs (sb : Superblock) (s : State) (ip : Slot) (size : Nat) (bytes : Bytes) : Prop :=
  ∀ (E : Env) (p : Proc) (dst : Dst) (off n : Nat), off < 2 ^ 32 → n < 2 ^ 32 →
    Does E p (readi sb ip dst off n) (fun r s' => s' = s ∧
      (r = (((clip size off n : Nat) : Int), bytes.slice off (clip size off n)) ∨
        (r.1 = -1 ∧ dst ≠ .kernel))) s

theorem Synced.readsAs (h : Synced sb s) (hr : 0 < (s.ident ip).ref) (hv : (s.node ip).valid = true) :
    ReadsAs sb s ip (s.node ip).d.size (s.vnode ip).bytes := by
  intro E p dst off n hoff hn
  have hread : Does E p (readi sb ip dst off n) (Reads s ip dst off
      (readLen (s.node ip).d.size off n) [] (readLen (s.node ip).d.size off n)) s :=
    does_readi h.bufs dst fun x h₁ h₂ => by
      rw [readLen_eq_clip hoff hn] at h₂
      have hlt := lt_of_clip (show x - off < clip (s.node ip).d.size off n by omega)
      rw [Nat.add_sub_of_le h₁] at hlt
      exact h.readable hr hv hlt
  rw [readLen_eq_clip hoff hn] at hread
  refine hread.mono ?_
  rintro r s' ⟨rfl, hr⟩
  refine ⟨rfl, hr.imp_left fun hr => ?_⟩
  rw [hr, List.nil_append]
  exact congrArg (Prod.mk _) (Bytes.slice_congr fun i hi => (if_pos (lt_of_clip hi)).symm)

theorem Wrote.vnode {src : Src} {tot stray : Nat} {d : Dinode} {data : Bytes} (h : Synced sb s)
    (hr : 0 < (s.ident ip).ref) (hv : (s.node ip).valid = true)
    (hw : Wrote E sb s ip src off n tot disk d data stray) : (s.put disk ip d).vnode ip =
      ((s.vnode ip).write off tot data).smear (off + tot) stray fun j => data (tot + j) := by
  have hvol := hw.volume
  have hslot : Fs.volume sb disk (s.inum ip) = some ((s.put disk ip d).vnode ip) :=
    hw.synced.volume_slot hr (by rw [put_node])
  rw [hvol, update_self, ← h.cache ip hr hv] at hslot
  exact (Option.some.inj hslot).symm

/-- **A file is an array of bytes.** `writei` overwrites part of it, as far as there are blocks, and
leaves the other inodes alone; `readi` answers what there is of it. -/
theorem file_is_array {src : Src} {bytes : Bytes} {off n : Nat} (h : Synced sb s) (hT : s.InTrans)
    (hr : 0 < (s.ident ip).ref) (hv : (s.node ip).valid = true)
    (hsrc : ∀ k x, src.Gives E k x → x = bytes k) (hcopy : ∀ a m c, E.copyin a m c → c.fault = none)
    (hoff : off ≤ (s.node ip).d.size) (hn : off + n ≤ MAXFILE * BSIZE) :
    Does E p (writei sb ip src off n) (fun r s' => ∃ tot : Nat, r = tot ∧ tot ≤ n ∧
      (s'.node ip).d.size = max (s.node ip).d.size (off + tot) ∧
      ReadsAs sb s' ip (max (s.node ip).d.size (off + tot))
        (fun x => if off ≤ x ∧ x < off + tot then bytes (x - off) else (s.vnode ip).bytes x) ∧
      (tot < n → ∀ x, x < sb.size → used sb s'.disk x = true) ∧
      ∀ j, j ≠ s.inum ip → j < sb.ninodes → inode sb s'.disk j = inode sb s.disk j ∧
        volume sb s'.disk j = volume sb s.disk j ∧ (Live sb (inode sb s.disk) j → ∀ k, k < NPLACE →
          entry s'.disk (inode sb s.disk j) k = entry s.disk (inode sb s.disk j) k)) s ∧
    ReadsAs sb s ip (s.node ip).d.size (s.vnode ip).bytes := by
  refine ⟨?_, h.readsAs hr hv⟩
  refine (h.does_writei hT hr hv src off n).mono fun r s' hw => ?_
  unfold WriteDone at hw
  rw [if_pos ⟨hoff, hn⟩] at hw
  obtain ⟨tot, disk, d, data, stray, rfl, rfl, hw⟩ := hw
  have hnofault {m : Nat} : ¬src.Faults E tot m stray fun j => data (tot + j) := by
    rintro ⟨a, c, k, -, hc, hf, -⟩
    exact nomatch (hcopy _ _ _ hc).symm.trans hf
  have hwhy := hw.why.imp_right fun hc => hc.resolve_right hnofault
  obtain rfl : stray = 0 := hwhy.elim And.right And.left
  have hnew : (s.put disk ip d).vnode ip = (s.vnode ip).write off tot bytes := by
    rw [hw.vnode h hr hv, smear_none, write_congr fun k hk => hsrc k _ (hw.gives k hk)]
  have hsize : ((s.put disk ip d).node ip).d.size = max (s.node ip).d.size (off + tot) :=
    congrArg Vnode.size hnew
  have hreads := hw.synced.readsAs hr (by rw [put_node])
  rw [hsize, hnew] at hreads
  refine ⟨tot, rfl, by have := hw.most; omega, hsize, hreads, fun hlt => ?_, fun j hj hjn => ?_⟩
  · exact (hwhy.resolve_left fun hc => by omega).2.2
  · obtain ⟨hi, hun⟩ := hw.others j hj hjn
    refine ⟨hi, ?_, fun hl k _ => (hun hl).entry k⟩
    rw [show (s.put disk ip d).disk = disk from rfl, hw.volume, update_of_ne hj]

end

/-- All of the user's memory can be read, and nothing may stop the run. -/
def wholeMemory (mem : Bytes) : Env := ⟨fun _ => False, fun a _ c => c = ⟨fun j => mem (a + j), none⟩⟩

theorem gives_wholeMemory {mem : Bytes} {a k : Nat} {x : UInt8}
    (h : (Src.user a).Gives (wholeMemory mem) k x) : x = mem (a + k) := by
  obtain ⟨tot, m, c, rfl, -, hle, -, rfl⟩ := h
  show mem (a + tot + (k - tot)) = _
  rw [Nat.add_assoc, Nat.add_sub_of_le hle]

/-- Ten bytes are appended to the file on the small disk. -/
theorem file_is_array_tiny : Does (wholeMemory (Bytes.fill 7)) 0 (writei tiny 0 (.user 0) BSIZE 10)
      (fun r s' => ∃ tot : Nat, r = tot ∧ tot ≤ 10 ∧ ReadsAs tiny s' 0 (max BSIZE (BSIZE + tot))
        fun x => if BSIZE ≤ x ∧ x < BSIZE + tot then 7 else (tinyState.vnode 0).bytes x) tinyState := by
  refine (file_is_array tiny_synced tinyState_inTrans (by decide) rfl
    (fun k x hx => gives_wholeMemory hx) (fun a m c hc => congrArg Copied.fault hc)
    (Nat.le_refl BSIZE) (by decide)).1.mono ?_
  rintro r s' ⟨tot, hr, htot, -, hreads, -⟩
  exact ⟨tot, hr, htot, hreads⟩

/-- What is left of a file after its first byte is asked for, with the greatest number there is. -/
theorem readi_wraps : ¬∀ off n, off < 2 ^ 32 → n < 2 ^ 32 →
    Does anyMemory 0 (readi tiny 0 .kernel off n)
      (fun r _ => r.1 = min n ((tinyState.node 0).d.size - off)) tinyState := by
  intro h
  have hrun := (h 1 (2 ^ 32 - 1) (by decide) (by decide)).2 _ _ ⟨default, trivial, rfl⟩
  have hzero : (0 : Int) = min (2 ^ 32 - 1) ((tinyState.node 0).d.size - 1) := hrun
  exact absurd hzero (by decide)

/-! ## The free map -/

/-- A free map that is fit for use: the counter of `balloc`, an `int`, gets to its end, no one is
given block 0, and its own blocks are marked in it. -/
structure MapInOrder (sb : Superblock) (disk : Disk) : Prop where
  size : sb.size + BPB ≤ 2 ^ 31
  zero : used sb disk 0 = true
  itself : ∀ x, x < sb.size → sb.bblock x < sb.size ∧ used sb disk (sb.bblock x) = true

/-- **`balloc` takes the first free block**, and `bfree` gives it back. -/
theorem balloc_takes_first {p : Proc} {sb : Superblock} {s : State} (h : MapInOrder sb s.disk)
    (hT : s.InTrans) (hbufs : ∀ b, s.buf b = none) : Does anyMemory p (balloc sb) (fun a s' =>
      (a = 0 ↔ ∀ x, x < sb.size → used sb s.disk x = true) ∧ (a = 0 → s' = s) ∧
      (a ≠ 0 → a < sb.size ∧ used sb s.disk a = false ∧ (∀ x, x < a → used sb s.disk x = true) ∧
        s'.disk a = Bytes.fill 0 ∧ (∀ x, x < sb.size → ∀ k, bit (s'.disk (sb.bblock x)) k =
          (decide (sb.bblock x = sb.bblock a ∧ k = a % BPB) || bit (s.disk (sb.bblock x)) k)) ∧
        (∀ b, b ≠ a → (∀ x, x < sb.size → b ≠ sb.bblock x) → s'.disk b = s.disk b) ∧
        s' = { s with disk := s'.disk } ∧
        Does anyMemory p (bfree sb a) (fun _ s'' => ∀ x, x < sb.size → ∀ k,
          bit (s''.disk (sb.bblock x)) k = bit (s.disk (sb.bblock x)) k) s')) s := by
  refine (does_balloc hT (fun _ _ => hbufs _) fun _ _ _ => hbufs _).mono ?_
  rintro a s' (⟨rfl, rfl, hfull⟩ | ⟨ha, hu, hleast, rfl⟩)
  · exact ⟨⟨fun _ => hfull, fun _ => rfl⟩, fun _ => rfl, fun h0 => absurd rfl h0⟩
  have ha0 : a ≠ 0 := by
    rintro rfl
    exact absurd (h.zero.symm.trans hu) (by decide)
  -- the block is none of the map's own
  have hown {x : Nat} (hx : x < sb.size) : sb.bblock x ≠ a := by
    intro he
    have hused := (h.itself x hx).2
    rw [he, hu] at hused
    exact absurd hused (by decide)
  have hbits {x : Nat} (hx : x < sb.size) (k : Nat) : bit (grab sb s.disk a (sb.bblock x)) k =
      (decide (sb.bblock x = sb.bblock a ∧ k = a % BPB) || bit (s.disk (sb.bblock x)) k) := by
    rw [grab, update_of_ne (hown hx), mark]
    by_cases hb : sb.bblock x = sb.bblock a
    · rw [hb, update_self, bit_setBit]
      simp
    · rw [update_of_ne hb]
      simp [hb]
  refine ⟨⟨fun h0 => absurd h0 ha0, fun hfull => ?_⟩, fun h0 => absurd h0 ha0, fun _ =>
    ⟨ha, hu, hleast, grab_self, fun x hx k => hbits hx k, fun b hba hb => ?_, rfl, ?_⟩⟩
  · exact absurd ((hfull a ha).symm.trans hu) (by decide)
  · show grab sb s.disk a b = s.disk b
    rw [grab, update_of_ne hba, mark, update_of_ne (hb a ha)]
  · have hmarked : used sb (grab sb s.disk a) a = true := by
      rw [used, hbits ha]
      simp
    refine does_bfree hT (hbufs _) hmarked fun x hx k => ?_
    show bit (unmark sb (grab sb s.disk a) a (sb.bblock x)) k = _
    rw [unmark]
    by_cases hb : sb.bblock x = sb.bblock a
    · rw [hb, update_self, bit_clearBit, hbits ha]
      by_cases hk : k = a % BPB
      · subst hk
        simp [show bit (s.disk (sb.bblock a)) (a % BPB) = false from hu]
      · simp [hk]
    · rw [update_of_ne hb, hbits hx]
      simp [hb]

def wide : Superblock := ⟨8200, 8197, 0, 0, 0, 0, 1⟩

/-- In the first of them all blocks are marked, in the second the first four. -/
def wideState : State :=
  { tinyState with disk := fun b k => if b = 1 then 255 else if b = 2 ∧ k = 0 then 15 else 0 }

/-- Block 8196 is taken. -/
theorem balloc_takes_first_wide : MapInOrder wide wideState.disk ∧
    Does anyMemory 0 (balloc wide) (fun a s' => a = 8196 ∧ s'.disk 8196 = Bytes.fill 0) wideState := by
  have hfull (x : Nat) (hx : x < 8196) : used wide wideState.disk x = true := by
    rcases Nat.lt_or_ge x 8192 with hlt | hge
    · have hbit : ∀ k < 8, Nat.testBit 255 k = true := by decide
      rw [used, show wide.bblock x = 1 from congrArg (· + 1) (Nat.div_eq_of_lt hlt)]
      exact hbit _ (Nat.mod_lt _ (by decide))
    · have hbit : ∀ k < 4, used wide wideState.disk (8192 + k) = true := by decide +kernel
      obtain ⟨k, rfl⟩ := Nat.exists_eq_add_of_le hge
      exact hbit k (by omega)
  have hfree : used wide wideState.disk 8196 = false := by decide +kernel
  have hmap : MapInOrder wide wideState.disk := ⟨by decide, hfull 0 (by decide), fun x hx => by
    have hx : x < 8200 := hx
    have hle : x / BPB + 1 < 8196 := by
      show x / 8192 + 1 < 8196
      omega
    exact ⟨hle.trans (by decide), hfull _ hle⟩⟩
  refine ⟨hmap, (balloc_takes_first hmap tinyState_inTrans fun _ => rfl).mono ?_⟩
  rintro a s' ⟨hzero, -, h⟩
  have h0 : a ≠ 0 := fun h0 => Bool.false_ne_true (hfree.symm.trans (hzero.mp h0 8196 (by decide)))
  obtain ⟨-, hu, hleast, hclear, -⟩ := h h0
  obtain rfl : a = 8196 := by
    rcases Nat.lt_trichotomy a 8196 with hlt | heq | hgt
    · exact absurd (hu.symm.trans (hfull a hlt)) Bool.false_ne_true
    · exact heq
    · exact absurd (hfree.symm.trans (hleast 8196 hgt)) Bool.false_ne_true
  exact ⟨rfl, hclear⟩

/-- A map in which only block 0 is marked: the map's own block is taken and cleared, and none of its
bits is set. -/
theorem balloc_clears_map : used tiny (mark tiny (fun _ => Bytes.fill 0) 0) 0 = true ∧
    (alone plenty 0 (balloc tiny)
      { tinyState with disk := mark tiny (fun _ => Bytes.fill 0) 0 }).map
        (fun r => (r.1, used tiny r.2.disk 1, used tiny r.2.disk 0)) = .ok (1, false, false) := by
  decide +kernel

end ZeptOS.Fs
