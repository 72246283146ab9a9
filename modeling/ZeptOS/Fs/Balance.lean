import ZeptOS.Fs.Own

/-!
# What the functions of the file system take and give

One specification a function, for all that can be answered to it. A function that returns an inode
gives a reference with it, locked or not as its name says, and none on any other exit; whatever it has
locked or read on the way it has let go.
-/

namespace ZeptOS.Fs

open Lib Lib.Code

variable {R : Rules sig Ledger} [Owning R] {e : Private} {W : Multiset Token} (sb : Superblock)
variable {c : Slot}

theorem warrant_tx : Warrant R {.tx} := fun _ => Multiset.mem_singleton_self _

theorem warrant_loose : Warrant (own false) W := Bool.noConfusion

/-! ## Blocks -/

section Blocks

variable (hW : Warrant R W)
include hW

theorem write_uses (b : Nat) (data : Block) {α : Type} {k : FsM α} {X : α → Multiset Token}
    {T : Multiset Token} (hT : W ≤ T) (hk : Uses R T e k X) :
    Uses R ({.buf b} + T) e (do
      bstore b data
      logWrite b
      brelse b
      k) X := by
  refine (uses_bstore b data).keeps (by simp) fun _ => ?_
  refine (uses_logWrite hW b).keeps (add_le_add_right hT _) fun _ => ?_
  exact (uses_brelse b).drops fun _ => hk

theorem bzero_uses (b : Nat) : Uses R W e (bzero b) fun _ => W := by
  refine (uses_bread b).gains fun _ => ?_
  exact write_uses (k := pure ()) hW b _ (by simp) spends_pure

theorem ballocFrom_uses (n b : Nat) : Uses R W e (ballocFrom sb n b) fun _ => W := by
  induction n generalizing b with
  | zero => exact spends_pure
  | succ n ih =>
    unfold ballocFrom
    split
    · refine (uses_bread _).gains fun data => ?_
      split
      · refine write_uses hW _ _ (by simp) ?_
        refine (bzero_uses hW _).keeps (by simp) fun _ => ?_
        exact spends_pure
      · exact (uses_brelse _).drops fun _ => ih _
    · exact spends_pure

theorem balloc_uses : Uses R W e (balloc sb) fun _ => W := ballocFrom_uses sb hW _ _

theorem bfree_uses (b : Nat) : Uses R W e (bfree sb b) fun _ => W := by
  refine (uses_bread _).gains fun data => ?_
  dsimp only
  split
  · exact triple_panic _
  · exact write_uses (k := pure ()) hW _ _ (by simp) spends_pure

/-! ## Inodes -/

theorem iallocFrom_uses (dev type n inum : Nat) :
    Uses R W e (iallocFrom sb dev type n inum) fun r => W + inodeRef r := by
  induction n generalizing inum with
  | zero => exact Triple.pure ⟨(add_zero _).symm, rfl⟩
  | succ n ih =>
    refine (uses_bread _).gains fun data => ?_
    split
    · refine write_uses hW _ _ (by simp) ?_
      refine (uses_iget dev inum).gains fun ip => ?_
      exact Triple.pure ⟨add_comm _ _, rfl⟩
    · exact (uses_brelse _).drops fun _ => ih _

theorem ialloc_uses (dev type : Nat) :
    Uses R W e (ialloc sb dev type) fun r => W + inodeRef r := iallocFrom_uses sb hW _ _ _ _

theorem iupdate_uses (ip : Slot) :
    Uses R ({.lock ip} + W) e (iupdate sb ip) fun _ => {.lock ip} + W := by
  refine (uses_ident ip).keeps (by simp) fun i => ?_
  refine (uses_bread _).gains fun data => ?_
  refine (uses_node ip).keeps (by simp) fun n => ?_
  exact write_uses (k := pure ()) hW _ _ (by simp) spends_pure

end Blocks

theorem modifyNode_uses (ip : Slot) (f : Dinode → Dinode) :
    Uses R {.lock ip} e (modifyNode ip f) fun _ => {.lock ip} :=
  (uses_node ip).keeps (by simp) fun _ => uses_setNode ip _

theorem idup_uses (ip : Slot) : Uses R {.iref ip} e (idup ip) fun r => {.iref r} + {.iref ip} := by
  refine (uses_idup ip).call (F := 0) (by abel) fun _ => ?_
  exact Triple.pure ⟨by abel, rfl⟩

theorem ilock_uses (ip : Slot) : Uses R 0 e (ilock sb ip) fun _ => {.lock ip} := by
  refine (uses_ident ip).keeps (by simp) fun i => ?_
  split
  · exact triple_panic _
  refine (uses_acquiresleep ip).gains fun _ => ?_
  refine (uses_node ip).keeps (by simp) fun n => ?_
  split
  · exact spends_pure
  refine (uses_ident ip).keeps (by simp) fun i => ?_
  refine (uses_bread _).gains fun data => ?_
  refine (uses_setNode ip _).keeps (by simp) fun _ => ?_
  refine (uses_brelse _).drops fun _ => ?_
  refine (uses_setNode ip _).keeps (by simp) fun _ => ?_
  split
  · exact triple_panic _
  · exact spends_pure

theorem iunlock_uses (ip : Slot) : Uses R {.lock ip} e (iunlock ip) fun _ => 0 := by
  refine (uses_holdingsleep ip).keeps (by simp) fun r => ?_
  split
  · exact triple_panic _
  refine (uses_ident ip).keeps (by simp) fun i => ?_
  split
  · exact triple_panic _
  · exact uses_releasesleep ip

/-! ## Inode content -/

section Content

variable (hW : Warrant R W)
include hW

theorem bmapIndirect_uses (addr bn : Nat) : Uses R W e (bmapIndirect sb addr bn) fun _ => W := by
  refine (uses_bread addr).gains fun data => ?_
  dsimp only
  split
  · refine (balloc_uses sb hW).keeps (by simp) fun a => ?_
    unfold when
    split
    · exact write_uses hW addr _ (by simp) spends_pure
    · exact (uses_brelse addr).drops fun _ => spends_pure
  · exact (uses_brelse addr).drops fun _ => spends_pure

theorem bmap_uses (ip : Slot) (bn : Nat) :
    Uses R ({.lock ip} + W) e (bmap sb ip bn) fun _ => {.lock ip} + W := by
  unfold bmap
  split
  · refine (uses_node ip).keeps (by simp) fun n => ?_
    dsimp only
    split
    · refine (balloc_uses sb hW).keeps (by simp) fun a => ?_
      split
      · exact spends_pure
      · exact (modifyNode_uses ip _).keeps (by simp) fun _ => spends_pure
    · exact spends_pure
  split
  · refine (uses_node ip).keeps (by simp) fun n => ?_
    dsimp only
    split
    · refine (balloc_uses sb hW).keeps (by simp) fun a => ?_
      split
      · exact spends_pure
      · refine (modifyNode_uses ip _).keeps (by simp) fun _ => ?_
        exact (bmapIndirect_uses sb hW _ _).keeps_last (by simp) fun _ => ⟨rfl, rfl⟩
    · exact (bmapIndirect_uses sb hW _ _).keeps_last (by simp) fun _ => ⟨rfl, rfl⟩
  · exact triple_panic _

theorem readiFrom_uses (ip : Slot) (dst : Dst) (n fuel tot off : Nat) (acc : List UInt8) :
    Uses R ({.lock ip} + W) e (readiFrom sb ip dst n fuel tot off acc) fun _ => {.lock ip} + W := by
  induction fuel generalizing tot off acc with
  | zero => exact spends_pure
  | succ fuel ih =>
    unfold readiFrom
    split
    · refine (bmap_uses sb hW ip _).keeps (by simp) fun addr => ?_
      split
      · exact spends_pure
      refine (uses_bread addr).gains fun data => ?_
      have hcopy (d : Dst) (t : Nat) (bs : List UInt8) :
          Uses R 0 e (eitherCopyout d t bs) fun _ => 0 := by
        cases d with
        | kernel => exact spends_pure
        | user a => exact uses_copyout _ _
      refine (hcopy _ _ _).keeps (by simp) fun r => ?_
      split
      · exact (uses_brelse addr).drops fun _ => ih _ _ _
      · exact (uses_brelse addr).drops fun _ => spends_pure
    · exact spends_pure

theorem readi_uses (ip : Slot) (dst : Dst) (off n : Nat) :
    Uses R ({.lock ip} + W) e (readi sb ip dst off n) fun _ => {.lock ip} + W := by
  refine (uses_node ip).keeps (by simp) fun x => ?_
  dsimp only
  split
  · exact spends_pure
  · exact readiFrom_uses sb hW _ _ _ _ _ _ _

theorem writeiFrom_uses (ip : Slot) (src : Src) (n fuel tot off : Nat) :
    Uses R ({.lock ip} + W) e (writeiFrom sb ip src n fuel tot off) fun _ => {.lock ip} + W := by
  induction fuel generalizing tot off with
  | zero => exact spends_pure
  | succ fuel ih =>
    unfold writeiFrom
    split
    · refine (bmap_uses sb hW ip _).keeps (by simp) fun addr => ?_
      split
      · exact spends_pure
      refine (uses_bread addr).gains fun data => ?_
      have hcopy (x : Src) (t m : Nat) : Uses R 0 e (eitherCopyin x t m) fun _ => 0 := by
        cases x with
        | kernel bs => exact spends_pure
        | user a => exact uses_copyin _ _
      refine (hcopy _ _ _).keeps (by simp) fun r => ?_
      dsimp only
      split
      · refine (uses_bstore addr _).keeps (by simp) fun _ => ?_
        exact (uses_brelse addr).drops fun _ => spends_pure
      · exact write_uses hW _ _ (by simp) (ih _ _)
    · exact spends_pure

end Content

theorem writei_uses (ip : Slot) (src : Src) (off n : Nat) :
    Uses R ({.lock ip} + {.tx}) e (writei sb ip src off n) fun _ => {.lock ip} + {.tx} := by
  refine (uses_enter _).keeps (by simp) fun _ => ?_
  refine (uses_node ip).keeps (by simp) fun x => ?_
  dsimp only
  split
  · exact spends_pure
  split
  · exact spends_pure
  refine (writeiFrom_uses sb warrant_tx _ _ _ _ _ _).keeps (by simp) fun r => ?_
  refine (uses_node ip).keeps (by simp) fun x => ?_
  refine (uses_when (modifyNode_uses ip _)).keeps (by simp) fun _ => ?_
  exact (iupdate_uses sb warrant_tx ip).keeps (by simp) fun _ => spends_pure

theorem itruncDirect_uses (ip : Slot) (n i : Nat) :
    Uses R ({.lock ip} + {.tx}) e (itruncDirect sb ip n i) fun _ => {.lock ip} + {.tx} := by
  induction n generalizing i with
  | zero => exact spends_pure
  | succ n ih =>
    refine (uses_node ip).keeps (by simp) fun x => ?_
    refine (uses_when (P := {.lock ip} + {.tx}) ?_).keeps (by simp) fun _ => ih _
    refine (bfree_uses sb warrant_tx _).keeps (by simp) fun _ => ?_
    exact (modifyNode_uses ip _).keeps_last (by simp) fun _ => ⟨rfl, rfl⟩

theorem itruncIndirect_uses (data : Block) (n j : Nat) :
    Uses R {.tx} e (itruncIndirect sb data n j) fun _ => {.tx} := by
  induction n generalizing j with
  | zero => exact spends_pure
  | succ n ih => exact (uses_when (bfree_uses sb warrant_tx _)).keeps (by simp) fun _ => ih _

theorem itrunc_uses (ip : Slot) :
    Uses R ({.lock ip} + {.tx}) e (itrunc sb ip) fun _ => {.lock ip} + {.tx} := by
  refine (uses_enter _).keeps (by simp) fun _ => ?_
  refine (itruncDirect_uses sb ip _ _).keeps (by simp) fun _ => ?_
  refine (uses_node ip).keeps (by simp) fun x => ?_
  refine (uses_when (P := {.lock ip} + {.tx}) ?_).keeps (by simp) fun _ => ?_
  · refine (uses_bread _).gains fun data => ?_
    refine (itruncIndirect_uses sb data _ _).keeps (by simp) fun _ => ?_
    refine (uses_brelse _).drops fun _ => ?_
    refine (bfree_uses sb warrant_tx _).keeps (by simp) fun _ => ?_
    exact (modifyNode_uses ip _).keeps_last (by simp) fun _ => ⟨rfl, rfl⟩
  · refine (modifyNode_uses ip _).keeps (by simp) fun _ => ?_
    exact iupdate_uses sb warrant_tx ip

theorem iput_uses (ip : Slot) : Uses R ({.tx} + {.iref ip}) e (iput sb ip) fun _ => {.tx} := by
  refine (uses_iputTest ip).call (F := 0) (by abel) fun r => ?_
  dsimp only
  split
  · refine (itrunc_uses sb ip).keeps (by simp) fun _ => ?_
    refine (modifyNode_uses ip _).keeps (by simp) fun _ => ?_
    refine (iupdate_uses sb warrant_tx ip).keeps (by simp) fun _ => ?_
    refine (uses_node ip).keeps (by simp) fun n => ?_
    refine (uses_setNode ip _).keeps (by simp) fun _ => ?_
    refine (uses_releasesleep ip).call (F := {.iref ip} + {.tx}) (by abel) fun _ => ?_
    exact (uses_iputDrop ip).last (F := {.tx}) (by abel) fun _ => ⟨by abel, rfl⟩
  · exact Triple.pure ⟨by abel, rfl⟩

theorem iunlockput_uses (ip : Slot) :
    Uses R ({.tx} + {.iref ip} + {.lock ip}) e (iunlockput sb ip) fun _ => {.tx} := by
  rw [add_comm]
  exact (iunlock_uses ip).drops fun _ => iput_uses sb ip

/-! ## Directories -/

section Directories

variable (hW : Warrant R W)
include hW

theorem readDirent_uses (x : Panic) (dp : Slot) (off : Nat) :
    Uses R ({.lock dp} + W) e (readDirent sb x dp off) fun _ => {.lock dp} + W := by
  refine (readi_uses sb hW dp _ _ _).keeps (by simp) fun r => ?_
  split
  · exact triple_panic _
  · exact spends_pure

theorem dirlookupFrom_uses (dp : Slot) (name : List UInt8) (n off : Nat) :
    Uses R ({.lock dp} + W) e (dirlookupFrom sb dp name n off) fun _ => {.lock dp} + W := by
  induction n generalizing off with
  | zero => exact spends_pure
  | succ n ih =>
    refine (uses_node dp).keeps (by simp) fun x => ?_
    split
    · refine (readDirent_uses sb hW _ dp off).keeps (by simp) fun de => ?_
      split
      · exact ih _
      split
      · exact spends_pure
      · exact ih _
    · exact spends_pure

theorem dirlookup_uses (dp : Slot) (name : List UInt8) :
    Uses R ({.lock dp} + W) e (dirlookup sb dp name)
      fun r => {.lock dp} + W + inodeRef (r.map Prod.fst) := by
  refine (uses_node dp).keeps (by simp) fun x => ?_
  dsimp only
  split
  · exact triple_panic _
  refine (dirlookupFrom_uses sb hW dp name _ _).keeps (by simp) fun r => ?_
  split
  · exact Triple.pure ⟨(add_zero _).symm, rfl⟩
  · refine (uses_ident dp).keeps (by simp) fun i => ?_
    exact (uses_iget _ _).gains fun ip => Triple.pure ⟨add_comm _ _, rfl⟩

theorem emptyDirentFrom_uses (dp : Slot) (n off : Nat) :
    Uses R ({.lock dp} + W) e (emptyDirentFrom sb dp n off) fun _ => {.lock dp} + W := by
  induction n generalizing off with
  | zero => exact spends_pure
  | succ n ih =>
    refine (uses_node dp).keeps (by simp) fun x => ?_
    split
    · refine (readDirent_uses sb hW _ dp off).keeps (by simp) fun de => ?_
      split
      · exact spends_pure
      · exact ih _
    · exact spends_pure

end Directories

theorem dirlink_uses (dp : Slot) (name : List UInt8) (inum : Nat) :
    Uses R ({.lock dp} + {.tx}) e (dirlink sb dp name inum) fun _ => {.lock dp} + {.tx} := by
  refine (dirlookup_uses sb warrant_tx dp name).call (F := 0) (by abel) fun r => ?_
  split
  · next ip _ =>
    refine (iput_uses sb ip).call (F := {.lock dp}) ?_ fun _ => ?_
    · simp only [Option.map_some, inodeRef]
      abel
    · exact Triple.pure ⟨add_comm _ _, rfl⟩
  · simp only [Option.map_none, inodeRef, add_zero]
    refine (uses_node dp).keeps (by simp) fun x => ?_
    refine (emptyDirentFrom_uses sb warrant_tx dp _ _).keeps (by simp) fun off => ?_
    exact (writei_uses sb dp _ _ _).keeps (by simp) fun r => spends_pure

/-! ## Paths -/

theorem namexFrom_uses (parent : Bool) (n : Nat) (ip : Slot) (path : List UInt8) :
    Uses R ({.tx} + {.iref ip}) e (namexFrom sb parent n ip path)
      fun r => {.tx} + inodeRef (r.map Prod.fst) := by
  induction n generalizing ip path with
  | zero => exact triple_panic _
  | succ n ih =>
    unfold namexFrom
    split
    · split
      · refine (iput_uses sb ip).call (F := 0) (by abel) fun _ => ?_
        exact Triple.pure ⟨rfl, rfl⟩
      · exact Triple.pure ⟨rfl, rfl⟩
    · refine (ilock_uses sb ip).gains fun _ => ?_
      refine (uses_node ip).keeps (by simp) fun x => ?_
      split
      · refine (iunlockput_uses sb ip).call (F := 0) (by abel) fun _ => ?_
        exact Triple.pure ⟨rfl, rfl⟩
      split
      · exact (iunlock_uses ip).drops fun _ => Triple.pure ⟨rfl, rfl⟩
      refine (dirlookup_uses sb warrant_tx ip _).call (F := {.iref ip}) (by abel) fun r => ?_
      split
      · refine (iunlockput_uses sb ip).call (F := 0) ?_ fun _ => ?_
        · simp only [Option.map_none, inodeRef]
          abel
        · exact Triple.pure ⟨rfl, rfl⟩
      · next next _ =>
        refine (iunlockput_uses sb ip).call (F := {.iref next}) ?_ fun _ => ?_
        · simp only [Option.map_some, inodeRef]
          abel
        · exact ih _ _

theorem cwd_triple {ok : Token → Prop} (hc : e.cwd = some c) :
    Triple R ok 0 e cwd fun r T e' => r = c ∧ T = 0 ∧ e' = e := by
  refine Triple.op (fun F _ => ?_) fun F r g _ hr => ?_
  · exact Owning.allow trivial (Multiset.zero_le _) (by simp [guard, hc])
  · obtain ⟨hr', rfl⟩ := Owning.step hr
    exact ⟨0, rfl, Option.some.inj (hr'.symm.trans hc), rfl, rfl⟩

theorem namex_uses (hc : e.cwd = some c) (path : List UInt8) (parent : Bool) :
    Uses R ({.tx} + {.iref c}) e (namex sb path parent)
      fun r => {.tx} + {.iref c} + inodeRef (r.map Prod.fst) := by
  have hwalk (ip : Slot) : Uses R ({.iref ip} + ({.tx} + {.iref c})) e
      (namexFrom sb parent (path.length + 1) ip path)
      fun r => {.tx} + {.iref c} + inodeRef (r.map Prod.fst) :=
    (namexFrom_uses sb parent _ ip path).last (F := {.iref c}) (by abel) fun _ => ⟨add_right_comm _ _ _, rfl⟩
  unfold namex
  split
  · exact (uses_iget _ _).gains fun ip => hwalk ip
  · refine Triple.bind (Q := fun r T e' => T = {.iref r} + ({.tx} + {.iref c}) ∧ e' = e) ?_ ?_
    · refine (cwd_triple hc).anywhere (F := {.tx} + {.iref c}) (by abel) ?_
      rintro _ T e' ⟨rfl, rfl, rfl⟩
      exact (idup_uses _).last (F := {.tx}) (by abel) fun _ => ⟨by abel, rfl⟩
    · rintro ip T e' ⟨rfl, rfl⟩
      exact hwalk ip

theorem namei_uses (hc : e.cwd = some c) (path : List UInt8) :
    Uses R ({.tx} + {.iref c}) e (namei sb path) fun r => {.tx} + {.iref c} + inodeRef r := by
  refine (namex_uses sb hc path false).call (F := 0) (by abel) fun r => ?_
  exact Triple.pure ⟨add_zero _, rfl⟩

theorem nameiparent_uses (hc : e.cwd = some c) (path : List UInt8) :
    Uses R ({.tx} + {.iref c}) e (nameiparent sb path)
      fun r => {.tx} + {.iref c} + inodeRef (r.map Prod.fst) :=
  namex_uses sb hc path true

end ZeptOS.Fs
