import ZeptOS.Fs.Balance

/-!
# What the calls take and give

Every system call of the file system, from its first line to each of its exits. Between calls a
process owns the references of its open files and of its working directory, no more and no less.

That a call comes to an exit is not shown: it may wait for a lock, or panic on the way, and then keeps
what it has.
-/

namespace ZeptOS.Fs

open Lib Lib.Code Function Multiset

variable {R : Rules sig Ledger} [Owning R] {tight : Bool} {e : Private} (sb : Superblock)
variable {k : Kid}

/-! ## What is owed -/

/-- `p->ofile[fd] = x` -/
def Private.setFd (e : Private) (fd : Nat) (x : Option FileNo) : Private :=
  { e with ofile := Function.update e.ofile fd x }

variable {fd : Nat}

/-- A pointer goes into the table with its reference, and the one that was there comes out. -/
theorem fileRefs_update (o : Nat → Option FileNo) (h : fd < NOFILE) (x : Option FileNo) :
    fileRefs (update o fd x) + fileRef (o fd) = fileRefs o + fileRef x := by
  have hfd : fd ∈ Finset.range NOFILE := Finset.mem_range.mpr h
  have hrest : ∑ i ∈ (Finset.range NOFILE).erase fd, fileRef (update o fd x i) =
      ∑ i ∈ (Finset.range NOFILE).erase fd, fileRef (o i) :=
    Finset.sum_congr rfl fun i hi => by rw [update_of_ne (Finset.ne_of_mem_erase hi)]
  unfold fileRefs
  rw [← Finset.sum_erase_add _ _ hfd, ← Finset.sum_erase_add _ (fun i => fileRef (o i)) hfd, hrest,
    update_self]
  abel

theorem quiet_fileRefs (o : Nat → Option FileNo) : ∀ r ∈ fileRefs o, r.Quiet := by
  intro r hr
  obtain ⟨fd, -, hfd⟩ := mem_sum.mp hr
  cases h : o fd with
  | none => simp [h, fileRef] at hfd
  | some f =>
    rw [h, fileRef, mem_singleton] at hfd
    subst hfd
    trivial

theorem quiet_iref (ip : Slot) : ∀ r ∈ ({.iref ip} : Multiset Token), r.Quiet := by
  intro r hr
  rw [mem_singleton.mp hr]
  trivial

theorem quiet_owed (e : Private) : ∀ r ∈ e.owed, r.Quiet := by
  intro r hr
  rcases mem_add.mp hr with h | h
  · exact quiet_fileRefs _ r h
  · cases hc : e.cwd with
    | none => simp [hc, inodeRef] at h
    | some c =>
      rw [hc] at h
      exact quiet_iref c r h

theorem quiet_zero : ∀ r ∈ (0 : Multiset Token), r.Quiet := by simp

structure Settled (T : Multiset Token) (e : Private) : Prop where
  live : e.pstate = .live
  kid : e.kid = none
  cwd : e.cwd ≠ none
  owed : T = e.owed

/-! ## Files -/

variable {ok : Token → Prop}

theorem filecloseRef_blank (f : FileNo) :
    Triple (own tight) ok ({.fref f} + {.blank f}) e (filecloseRef f) fun r T e' =>
      (∃ ff, r = some ff ∧ ff.type = .none) ∧ T = 0 ∧ e' = e := by
  refine Triple.op (fun F _ => ⟨?_, trivial⟩) fun F r g _ hr => ?_
  · rw [add_assoc]
    exact le_add_right _ _
  · simp only [own, Ledger.step, mem_add, mem_singleton, or_true, true_or,
      if_true] at hr
    obtain ⟨hff, T, hT, hg, he⟩ := hr
    exact ⟨0, by rw [hg, add_left_cancel hT], hff, rfl, he⟩

theorem filecloseRef_triple (f : FileNo) :
    Triple (own tight) Token.Quiet {.fref f} e (filecloseRef f) fun r T e' =>
      T = (match r with
        | none => 0
        | some ff => ff.owns) ∧ e' = e := by
  refine Triple.op (fun F _ => ⟨le_add_right _ _, trivial⟩) fun F r g hF hr => ?_
  have hb : .blank f ∉ {Token.fref f} + F := by
    intro h
    rcases mem_add.mp h with h | h
    · exact nomatch mem_singleton.mp h
    · exact hF _ h
  simp only [own, Ledger.step, if_neg hb] at hr
  cases r with
  | none =>
    obtain ⟨T, hT, hg, he⟩ := hr
    exact ⟨0, by rw [hg, add_left_cancel hT], rfl, he⟩
  | some ff =>
    obtain ⟨T, hT, hg, he⟩ := hr
    exact ⟨ff.owns, by rw [hg, add_left_cancel hT], rfl, he⟩

theorem fileclose_blank (f : FileNo) :
    Uses (own tight) ({.fref f} + {.blank f}) e (fileclose sb f) fun _ => 0 := by
  refine (filecloseRef_blank f).bind ?_
  rintro r T e' ⟨⟨ff, rfl, hff⟩, rfl, rfl⟩
  simp only [hff, reduceCtorEq, or_self, if_false]
  exact spends_pure

theorem fileclose_spends (f : FileNo) :
    Spends (own tight) Token.Quiet {.fref f} e (fileclose sb f) fun _ => 0 := by
  refine (filecloseRef_triple f).bind ?_
  rintro r T e' ⟨rfl, rfl⟩
  have hput (ip : Slot) : Spends (own tight) Token.Quiet {.iref ip} e' (do
      beginOp
      iput sb ip
      endOp) fun _ => 0 := by
    refine spends_beginOp.within (F := {.iref ip}) (by abel) (quiet_iref ip) fun _ => ?_
    refine (iput_uses sb ip).call (F := 0) (by abel) fun _ => ?_
    exact uses_endOp.drops_last fun _ => ⟨rfl, rfl⟩
  cases r with
  | none => exact spends_pure
  | some ff =>
    cases hff : ff.type with
    | none =>
      simp only [hff, reduceCtorEq, or_self, if_false, File.owns]
      exact spends_pure
    | pipe =>
      simp only [hff, if_true, File.owns]
      exact (uses_pipeclose _ _).last (F := 0) (by abel) fun _ => ⟨by abel, rfl⟩
    | inode =>
      simp only [hff, reduceCtorEq, or_false, if_true, if_false, File.owns]
      exact hput _
    | device =>
      simp only [hff, reduceCtorEq, or_true, if_true, if_false, File.owns]
      exact hput _

theorem endOp_uses (v : Int) : Uses R {.tx} e (do
    endOp
    pure v) fun _ => 0 :=
  uses_endOp.call (F := 0) (by abel) fun _ => spends_pure

theorem filestat_uses (f : FileNo) (addr : Nat) : Uses R 0 e (filestat sb f addr) fun _ => 0 := by
  refine (uses_file f).keeps (by simp) fun x => ?_
  split
  · refine (ilock_uses sb x.ip).gains fun _ => ?_
    have hst : Uses R {.lock x.ip} e (stati x.ip) fun _ => {.lock x.ip} := by
      refine (uses_ident _).keeps (by simp) fun _ => ?_
      exact (uses_node _).keeps (by simp) fun _ => spends_pure
    refine hst.keeps (by simp) fun st => ?_
    refine (iunlock_uses x.ip).drops fun _ => ?_
    refine (uses_copyout _ _).keeps (by simp) fun r => ?_
    split
    · exact spends_pure
    · exact spends_pure
  · exact spends_pure

theorem fileread_uses (f : FileNo) (addr : Nat) (n : Int) :
    Uses (own false) 0 e (fileread sb f addr n) fun _ => 0 := by
  refine (uses_file f).keeps (by simp) fun x => ?_
  split
  · exact spends_pure
  split
  · exact uses_pipeIo _ _ _ _
  · split
    · exact spends_pure
    · exact uses_devIo _ _ _ _
  · refine (ilock_uses sb x.ip).gains fun _ => ?_
    refine (uses_file f).keeps (by simp) fun y => ?_
    refine (readi_uses sb (W := 0) warrant_loose x.ip _ _ _).keeps (by simp) fun r => ?_
    refine (uses_when (uses_setOff f _)).keeps (by simp) fun _ => ?_
    exact (iunlock_uses x.ip).drops fun _ => spends_pure
  · exact triple_panic _

theorem filewriteFrom_spends (f : FileNo) (ip : Slot) (addr n fuel i : Nat) :
    Spends (own tight) Token.Quiet 0 e (filewriteFrom sb f ip addr n fuel i) fun _ => 0 := by
  induction fuel generalizing i with
  | zero => exact spends_pure
  | succ fuel ih =>
    unfold filewriteFrom
    split
    · refine spends_beginOp.within (F := 0) rfl quiet_zero fun _ => ?_
      refine (ilock_uses sb ip).gains fun _ => ?_
      refine (uses_file f).keeps (by simp) fun y => ?_
      refine (writei_uses sb ip _ _ _).keeps (by simp) fun r => ?_
      refine (uses_when (uses_setOff f _)).keeps (by simp) fun _ => ?_
      refine (iunlock_uses ip).drops fun _ => ?_
      refine uses_endOp.drops fun _ => ?_
      split
      · exact spends_pure
      · exact ih _
    · exact spends_pure

theorem filewrite_spends (f : FileNo) (addr : Nat) (n : Int) :
    Spends (own tight) Token.Quiet 0 e (filewrite sb f addr n) fun _ => 0 := by
  refine (uses_file f).keeps (by simp) fun x => ?_
  split
  · exact spends_pure
  split
  · exact (uses_pipeIo _ _ _ _).keeps_last (by simp) fun _ => ⟨rfl, rfl⟩
  · split
    · exact spends_pure
    · exact (uses_devIo _ _ _ _).keeps_last (by simp) fun _ => ⟨rfl, rfl⟩
  · refine (filewriteFrom_spends sb f x.ip _ _ _ _).bind ?_
    rintro i T e' ⟨rfl, rfl⟩
    exact spends_pure
  · exact triple_panic _

/-! ## Descriptors -/

theorem ofile_triple (h : fd < NOFILE) :
    Triple (own tight) ok 0 e (ofile fd) fun r T e' => r = e.ofile fd ∧ T = 0 ∧ e' = e := by
  refine Triple.op (fun F _ => ⟨zero_le _, h⟩) fun F r g _ hr => ?_
  obtain ⟨hr, rfl⟩ := hr
  exact ⟨0, rfl, hr, rfl, rfl⟩

theorem setOfile_triple (h : fd < NOFILE) (x : Option FileNo) :
    Triple (own tight) ok 0 e (setOfile fd x) fun _ T e' => T = 0 ∧ e' = e.setFd fd x := by
  refine Triple.op (fun F _ => ⟨zero_le _, h⟩) fun F r g _ hr => ?_
  obtain rfl : g = _ := hr
  exact ⟨0, rfl, rfl, rfl⟩

theorem argfd_triple (fd : Int) :
    Triple (own tight) ok 0 e (argfd fd) fun r T e' => T = 0 ∧ e' = e ∧
      ∀ f, r = some f → fd.toNat < NOFILE ∧ e.ofile fd.toNat = some f := by
  unfold argfd
  split
  · exact Triple.pure ⟨rfl, rfl, nofun⟩
  · next h =>
    have hfd : fd.toNat < NOFILE := by omega
    refine (ofile_triple hfd).mono ?_
    rintro r T e' ⟨rfl, rfl, rfl⟩
    exact ⟨rfl, rfl, fun f hf => ⟨hfd, hf⟩⟩

/-- `fdalloc` puts the pointer into a free place of the table, and the reference stays with the caller. -/
theorem fdallocFrom_triple (f : FileNo) (n fd : Nat) (h : fd + n = NOFILE) :
    Triple (own tight) ok 0 e (fdallocFrom f n fd) fun r T e' => T = 0 ∧ ((r = none ∧ e' = e) ∨
        ∃ fd, r = some fd ∧ fd < NOFILE ∧ e.ofile fd = none ∧ e' = e.setFd fd (some f)) := by
  induction n generalizing fd with
  | zero => exact Triple.pure ⟨rfl, .inl ⟨rfl, rfl⟩⟩
  | succ n ih =>
    refine (ofile_triple (by omega)).bind ?_
    rintro r T e' ⟨hr, rfl, rfl⟩
    cases r with
    | none =>
      refine (setOfile_triple (by omega) _).bind ?_
      rintro _ T e'' ⟨rfl, rfl⟩
      exact Triple.pure ⟨rfl, .inr ⟨fd, rfl, by omega, hr.symm, rfl⟩⟩
    | some _ => exact ih (fd + 1) (by omega)

theorem fdalloc_triple (f : FileNo) : Triple (own tight) ok 0 e (fdalloc f) fun r T e' => T = 0 ∧
      ((r = none ∧ e' = e) ∨
        ∃ fd, r = some fd ∧ fd < NOFILE ∧ e.ofile fd = none ∧ e' = e.setFd fd (some f)) :=
  fdallocFrom_triple f NOFILE 0 (zero_add _)

theorem owed_clear {f : FileNo} (h : fd < NOFILE) (hf : e.ofile fd = some f) :
    e.owed = (e.setFd fd none).owed + {.fref f} := by
  have hu := fileRefs_update e.ofile h none
  rw [hf] at hu
  simp only [fileRef, add_zero] at hu
  rw [Private.owed, ← hu, Private.owed, Private.setFd]
  abel

theorem owed_set (h : fd < NOFILE) (hf : e.ofile fd = none) (f : FileNo) :
    (e.setFd fd (some f)).owed = e.owed + {.fref f} := by
  have hu := fileRefs_update e.ofile h (some f)
  rw [hf] at hu
  simp only [fileRef, add_zero] at hu
  rw [Private.owed, Private.setFd, hu, Private.owed]
  abel

theorem sysDup_triple (h : Settled e.owed e) (fd : Int) :
    Triple (own tight) Token.Quiet e.owed e (sysDup fd) fun _ => Settled := by
  refine (argfd_triple fd).anywhere (F := e.owed) (by abel) ?_
  rintro r T e' ⟨rfl, rfl, hr⟩
  rw [zero_add]
  cases r with
  | none => exact Triple.pure h
  | some f =>
    obtain ⟨hfd, hf⟩ := hr f rfl
    refine (fdalloc_triple f).anywhere (F := e'.owed) (by abel) ?_
    rintro r T e'' ⟨rfl, ⟨rfl, rfl⟩ | ⟨fd', rfl, hlt, hfree, rfl⟩⟩
    · rw [zero_add]
      exact Triple.pure h
    · refine (spends_filedup f).within (F := (e'.setFd fd.toNat none).owed) ?_ (quiet_owed _)
        fun _ => ?_
      · rw [owed_clear hfd hf]
        abel
      · refine Triple.pure ⟨h.live, h.kid, h.cwd, ?_⟩
        rw [owed_set hlt hfree, owed_clear hfd hf]
        abel

theorem sysClose_triple (h : Settled e.owed e) (fd : Int) :
    Triple (own tight) Token.Quiet e.owed e (sysClose sb fd) fun _ => Settled := by
  refine (argfd_triple fd).anywhere (F := e.owed) (by abel) ?_
  rintro r T e' ⟨rfl, rfl, hr⟩
  rw [zero_add]
  cases r with
  | none => exact Triple.pure h
  | some f =>
    obtain ⟨hfd, hf⟩ := hr f rfl
    refine (setOfile_triple hfd none).anywhere (F := e'.owed) (by abel) ?_
    rintro _ T e'' ⟨rfl, rfl⟩
    refine (fileclose_spends sb f).within (F := (e'.setFd fd.toNat none).owed) ?_ (quiet_owed _)
      fun _ => ?_
    · rw [owed_clear hfd hf]
      abel
    · exact Triple.pure ⟨h.live, h.kid, h.cwd, zero_add _⟩

/-! ## Links -/

theorem putEnd_uses (ip : Slot) (v : Int) :
    Uses R ({.tx} + {.iref ip} + {.lock ip}) e (do
      iunlockput sb ip
      endOp
      pure v) fun _ => 0 :=
  (iunlockput_uses sb ip).call (F := 0) (by abel) fun _ => by
    rw [add_zero]
    exact endOp_uses v

theorem linkBad_uses (ip : Slot) : Uses R ({.tx} + {.iref ip}) e (linkBad sb ip) fun _ => 0 := by
  refine (ilock_uses sb ip).gains fun _ => ?_
  refine (modifyNode_uses ip _).keeps (by simp) fun _ => ?_
  refine (iupdate_uses sb warrant_tx ip).keeps (by simp) fun _ => ?_
  rw [add_comm]
  exact putEnd_uses sb ip _

theorem unlinkBad_uses (dp : Slot) :
    Uses R ({.tx} + {.iref dp} + {.lock dp}) e (unlinkBad sb dp) fun _ => 0 :=
  putEnd_uses sb dp _

section Paths

variable {c : Slot} (hc : e.cwd = some c)
include hc

theorem sysLink_spends (old new : Option (List UInt8)) :
    Spends R Token.Quiet {.iref c} e (sysLink sb old new) fun _ => {.iref c} := by
  unfold sysLink
  split
  · next old new =>
    refine spends_beginOp.within (F := {.iref c}) (by abel) (quiet_iref c) fun _ => ?_
    refine (namei_uses sb hc old).call (F := 0) (by abel) fun r => ?_
    rw [add_zero]
    cases r with
    | none => exact (endOp_uses _).last (F := {.iref c}) (by simp [inodeRef]) fun _ => ⟨by abel, rfl⟩
    | some ip =>
      simp only [inodeRef]
      refine (ilock_uses sb ip).gains fun _ => ?_
      refine (uses_node ip).keeps (by simp) fun x => ?_
      split
      · exact (putEnd_uses sb ip _).last (F := {.iref c}) (by abel) fun _ => ⟨by abel, rfl⟩
      refine (modifyNode_uses ip _).keeps (by simp) fun _ => ?_
      refine (iupdate_uses sb warrant_tx ip).keeps (by simp) fun _ => ?_
      refine (iunlock_uses ip).drops fun _ => ?_
      refine (nameiparent_uses sb hc new).call (F := {.iref ip}) (by abel) fun r => ?_
      have hbad : Triple R Token.Quiet ({.tx} + {.iref c} + {.iref ip}) e (linkBad sb ip)
          fun _ T e' => T = {.iref c} ∧ e' = e :=
        (linkBad_uses sb ip).last (F := {.iref c}) (by abel) fun _ => ⟨by abel, rfl⟩
      cases r with
      | none => simpa [inodeRef] using hbad
      | some r =>
        obtain ⟨dp, name⟩ := r
        simp only [Option.map_some, inodeRef]
        refine (ilock_uses sb dp).gains fun _ => ?_
        refine (uses_ident ip).keeps (by simp) fun i => ?_
        refine (uses_ident dp).keeps (by simp) fun j => ?_
        split
        · refine (iunlockput_uses sb dp).call (F := {.iref c} + {.iref ip}) (by abel) fun _ => ?_
          rwa [← add_assoc]
        refine (dirlink_uses sb dp name _).keeps (by simp) fun r => ?_
        split
        · refine (iunlockput_uses sb dp).call (F := {.iref c} + {.iref ip}) (by abel) fun _ => ?_
          rwa [← add_assoc]
        refine (iunlockput_uses sb dp).call (F := {.iref c} + {.iref ip}) (by abel) fun _ => ?_
        refine (iput_uses sb ip).call (F := {.iref c}) (by abel) fun _ => ?_
        exact (endOp_uses _).drops_last fun _ => ⟨rfl, rfl⟩
  · exact spends_pure

omit hc in
theorem isdirempty_uses (dp : Slot) :
    Uses R ({.lock dp} + {.tx}) e (isdirempty sb dp) fun _ => {.lock dp} + {.tx} := by
  have hloop (n off : Nat) : Uses R ({.lock dp} + {.tx}) e (isdiremptyFrom sb dp n off)
      fun _ => {.lock dp} + {.tx} := by
    induction n generalizing off with
    | zero => exact spends_pure
    | succ n ih =>
      refine (uses_node dp).keeps (by simp) fun x => ?_
      split
      · refine (readDirent_uses sb warrant_tx _ dp off).keeps (by simp) fun de => ?_
        split
        · exact spends_pure
        · exact ih _
      · exact spends_pure
  exact (uses_node dp).keeps (by simp) fun x => hloop _ _

omit hc in
theorem whenDir_uses (dp : Slot) (type : Nat) (f : Dinode → Dinode) :
    Uses R ({.lock dp} + {.tx}) e (when (type = T_DIR) do
      modifyNode dp f
      iupdate sb dp) fun _ => {.lock dp} + {.tx} :=
  uses_when ((modifyNode_uses dp f).keeps (by simp) fun _ => iupdate_uses sb warrant_tx dp)

omit hc in
theorem unlinkEntry_uses (dp ip : Slot) (off type : Nat) :
    Uses R ({.tx} + {.iref dp} + {.lock dp} + {.iref ip} + {.lock ip}) e
      (unlinkEntry sb dp ip off type) fun _ => 0 := by
  refine (writei_uses sb dp _ _ _).keeps (by simp) fun r => ?_
  split
  · exact triple_panic _
  refine (whenDir_uses sb dp type _).keeps (by simp) fun _ => ?_
  refine (iunlockput_uses sb dp).call (F := {.iref ip} + {.lock ip}) (by abel) fun _ => ?_
  refine (modifyNode_uses ip _).keeps (by simp) fun _ => ?_
  refine (iupdate_uses sb warrant_tx ip).keeps (by simp) fun _ => ?_
  rw [← add_assoc]
  exact putEnd_uses sb ip _

theorem sysUnlink_spends (path : Option (List UInt8)) :
    Spends R Token.Quiet {.iref c} e (sysUnlink sb path) fun _ => {.iref c} := by
  unfold sysUnlink
  split
  · exact spends_pure
  · next path =>
    refine spends_beginOp.within (F := {.iref c}) (by abel) (quiet_iref c) fun _ => ?_
    refine (nameiparent_uses sb hc path).call (F := 0) (by abel) fun r => ?_
    cases r with
    | none => exact (endOp_uses _).last (F := {.iref c}) (by simp [inodeRef]) fun _ => ⟨by abel, rfl⟩
    | some r =>
      obtain ⟨dp, name⟩ := r
      simp only [Option.map_some, inodeRef]
      refine (ilock_uses sb dp).gains fun _ => ?_
      unfold unlinkIn
      split
      · exact (unlinkBad_uses sb dp).last (F := {.iref c}) (by abel) fun _ => ⟨by abel, rfl⟩
      refine (dirlookup_uses sb warrant_tx dp name).call (F := {.iref c} + {.iref dp}) (by abel)
        fun r => ?_
      cases r with
      | none =>
        refine (unlinkBad_uses sb dp).last (F := {.iref c}) ?_ fun _ => ⟨by abel, rfl⟩
        simp only [Option.map_none, inodeRef]
        abel
      | some r =>
        obtain ⟨ip, off⟩ := r
        simp only [Option.map_some, inodeRef]
        refine (ilock_uses sb ip).gains fun _ => ?_
        refine (uses_node ip).keeps (by simp) fun x => ?_
        split
        · exact triple_panic _
        have hrem : Uses R ({.lock ip} + {.tx}) e (removable sb ip x.d.type)
            fun _ => {.lock ip} + {.tx} := by
          unfold removable
          split
          · exact isdirempty_uses sb ip
          · exact spends_pure
        refine hrem.keeps (by simp) fun r => ?_
        split
        · refine (iunlockput_uses sb ip).call (F := {.lock dp} + ({.iref c} + {.iref dp})) (by abel)
            fun _ => ?_
          exact (unlinkBad_uses sb dp).last (F := {.iref c}) (by abel) fun _ => ⟨by abel, rfl⟩
        · exact (unlinkEntry_uses sb dp ip off _).last (F := {.iref c}) (by abel)
            fun _ => ⟨by abel, rfl⟩

/-! ## Creating and opening -/

def lockedRef : Option Slot → Multiset Token
  | some ip => {.iref ip} + {.lock ip}
  | none => 0

omit hc in
theorem createFail_uses (dp ip : Slot) :
    Uses R ({.tx} + {.iref dp} + {.lock dp} + {.iref ip} + {.lock ip}) e (createFail sb dp ip)
      fun r => {.tx} + lockedRef r := by
  refine (modifyNode_uses ip _).keeps (by simp) fun _ => ?_
  refine (iupdate_uses sb warrant_tx ip).keeps (by simp) fun _ => ?_
  refine (iunlockput_uses sb ip).call (F := {.iref dp} + {.lock dp}) (by abel) fun _ => ?_
  refine (iunlockput_uses sb dp).call (F := 0) (by abel) fun _ => ?_
  exact Triple.pure ⟨rfl, rfl⟩

omit hc in
theorem createDots_uses (dp ip : Slot) (type : Nat) :
    Uses R ({.lock ip} + {.tx}) e (createDots sb dp ip type) fun _ => {.lock ip} + {.tx} := by
  unfold createDots
  split
  · refine (uses_ident ip).keeps (by simp) fun i => ?_
    refine (dirlink_uses sb ip _ _).keeps (by simp) fun r => ?_
    split
    · exact spends_pure
    · exact (uses_ident dp).keeps (by simp) fun j => dirlink_uses sb ip _ _
  · exact spends_pure

omit hc in
theorem createNew_uses (dp ip : Slot) (name : List UInt8) (type major minor : Nat) :
    Uses R ({.tx} + {.iref dp} + {.lock dp} + {.iref ip} + {.lock ip}) e
      (createNew sb dp ip name type major minor) fun r => {.tx} + lockedRef r := by
  refine (modifyNode_uses ip _).keeps (by simp) fun _ => ?_
  refine (iupdate_uses sb warrant_tx ip).keeps (by simp) fun _ => ?_
  refine (createDots_uses sb dp ip type).keeps (by simp) fun r => ?_
  split
  · exact createFail_uses sb dp ip
  refine (uses_ident ip).keeps (by simp) fun i => ?_
  refine (dirlink_uses sb dp name _).keeps (by simp) fun r => ?_
  split
  · exact createFail_uses sb dp ip
  refine (whenDir_uses sb dp type _).keeps (by simp) fun _ => ?_
  refine (iunlockput_uses sb dp).call (F := {.iref ip} + {.lock ip}) (by abel) fun _ => ?_
  exact Triple.pure ⟨rfl, rfl⟩

theorem create_uses (path : List UInt8) (type major minor : Nat) :
    Uses R ({.tx} + {.iref c}) e (create sb path type major minor)
      fun r => {.tx} + {.iref c} + lockedRef r := by
  refine (nameiparent_uses sb hc path).call (F := 0) (by abel) fun r => ?_
  cases r with
  | none => exact Triple.pure ⟨rfl, rfl⟩
  | some r =>
    obtain ⟨dp, name⟩ := r
    simp only [Option.map_some, inodeRef]
    refine (ilock_uses sb dp).gains fun _ => ?_
    refine (dirlookup_uses sb warrant_tx dp name).call (F := {.iref c} + {.iref dp}) (by abel)
      fun r => ?_
    cases r with
    | some r =>
      obtain ⟨ip, off⟩ := r
      simp only [Option.map_some, inodeRef]
      refine (iunlockput_uses sb dp).call (F := {.iref c} + {.iref ip}) (by abel) fun _ => ?_
      refine (ilock_uses sb ip).gains fun _ => ?_
      refine (uses_node ip).keeps (by simp) fun x => ?_
      split
      · refine Triple.pure ⟨?_, rfl⟩
        simp only [lockedRef]
        abel
      · refine (iunlockput_uses sb ip).call (F := {.iref c}) (by abel) fun _ => ?_
        exact Triple.pure ⟨rfl, rfl⟩
    | none =>
      simp only [Option.map_none, inodeRef, add_zero]
      refine (uses_ident dp).keeps (by simp) fun i => ?_
      refine (ialloc_uses sb warrant_tx _ _).call (F := {.lock dp} + ({.iref c} + {.iref dp}))
        (by abel) fun r => ?_
      cases r with
      | none =>
        simp only [inodeRef]
        refine (iunlockput_uses sb dp).call (F := {.iref c}) (by abel) fun _ => ?_
        exact Triple.pure ⟨rfl, rfl⟩
      | some ip =>
        simp only [inodeRef]
        refine (ilock_uses sb ip).gains fun _ => ?_
        exact (createNew_uses sb dp ip name type major minor).last (F := {.iref c}) (by abel)
          fun _ => ⟨add_right_comm _ _ _, rfl⟩

theorem sysCreate_spends (path : Option (List UInt8)) (type major minor : Nat) :
    Spends R Token.Quiet {.iref c} e (sysCreate sb path type major minor) fun _ => {.iref c} := by
  refine spends_beginOp.within (F := {.iref c}) (by abel) (quiet_iref c) fun _ => ?_
  cases path with
  | none => exact (endOp_uses _).drops_last fun _ => ⟨rfl, rfl⟩
  | some path =>
    refine (create_uses sb hc path type major minor).call (F := 0) (by abel) fun r => ?_
    cases r with
    | none => exact (endOp_uses _).last (F := {.iref c}) (by simp [lockedRef]) fun _ => ⟨by abel, rfl⟩
    | some ip =>
      simp only [lockedRef]
      exact (putEnd_uses sb ip _).last (F := {.iref c}) (by abel) fun _ => ⟨by abel, rfl⟩

omit hc in
theorem readStruct_uses (ip : Slot) (off n : Nat) :
    Uses R ({.lock ip} + {.tx}) e (readStruct sb ip off n) fun _ => {.lock ip} + {.tx} := by
  refine (readi_uses sb warrant_tx ip _ _ _).keeps (by simp) fun r => ?_
  split
  · exact spends_pure
  · exact spends_pure

omit hc in
theorem loadsegFrom_uses (ip : Slot) (offset sz n i : Nat) :
    Uses R ({.lock ip} + {.tx}) e (loadsegFrom sb ip offset sz n i)
      fun _ => {.lock ip} + {.tx} := by
  induction n generalizing i with
  | zero => exact spends_pure
  | succ n ih =>
    unfold loadsegFrom
    split
    · refine (uses_memory _).keeps (by simp) fun r => ?_
      split
      · exact triple_panic _
      refine (readStruct_uses sb ip _ _).keeps (by simp) fun r => ?_
      split
      · exact spends_pure
      · exact ih _
    · exact spends_pure

omit hc in
theorem loadseg_uses (ip : Slot) (va offset sz : Nat) :
    Uses R ({.lock ip} + {.tx}) e (loadseg sb ip va offset sz) fun _ => {.lock ip} + {.tx} := by
  unfold loadseg
  split
  · dsimp only
    refine (uses_memory _).keeps (by simp) fun r => ?_
    split
    · exact triple_panic _
    refine (readStruct_uses sb ip _ _).keeps (by simp) fun r => ?_
    split
    · exact spends_pure
    split
    · exact spends_pure
    · exact loadsegFrom_uses sb ip _ _ _ _
  · exact loadsegFrom_uses sb ip _ _ _ _

omit hc in
theorem execSegment_uses (ip : Slot) (ph : Bytes) :
    Uses R ({.lock ip} + {.tx}) e (execSegment sb ip ph) fun _ => {.lock ip} + {.tx} := by
  unfold execSegment
  extract_lets vaddr memsz
  split
  · exact spends_pure
  split
  · exact spends_pure
  split
  · exact spends_pure
  refine (uses_memory _).keeps (by simp) fun r => ?_
  split
  · exact spends_pure
  · exact loadseg_uses sb ip _ _ _

omit hc in
theorem execSegments_uses (ip : Slot) (n off : Nat) :
    Uses R ({.lock ip} + {.tx}) e (execSegments sb ip n off) fun _ => {.lock ip} + {.tx} := by
  induction n generalizing off with
  | zero => exact spends_pure
  | succ n ih =>
    refine (readStruct_uses sb ip _ _).keeps (by simp) fun r => ?_
    cases r with
    | none => exact spends_pure
    | some ph =>
      refine (execSegment_uses sb ip ph).keeps (by simp) fun r => ?_
      split
      · exact spends_pure
      · exact ih _

omit hc in
theorem execImage_uses (ip : Slot) :
    Uses R ({.lock ip} + {.tx}) e (execImage sb ip) fun _ => {.lock ip} + {.tx} := by
  refine (readStruct_uses sb ip _ _).keeps (by simp) fun r => ?_
  cases r with
  | none => exact spends_pure
  | some elf =>
    dsimp only
    split
    · exact spends_pure
    refine (uses_memory _).keeps (by simp) fun r => ?_
    split
    · exact spends_pure
    · exact execSegments_uses sb ip _ _

theorem exec_spends (path : List UInt8) (argc : Nat) :
    Spends R Token.Quiet {.iref c} e (exec sb path argc) fun _ => {.iref c} := by
  refine spends_beginOp.within (F := {.iref c}) (by abel) (quiet_iref c) fun _ => ?_
  refine (namei_uses sb hc path).call (F := 0) (by abel) fun r => ?_
  cases r with
  | none => exact (endOp_uses _).last (F := {.iref c}) (by simp [inodeRef]) fun _ => ⟨by abel, rfl⟩
  | some ip =>
    simp only [inodeRef]
    refine (ilock_uses sb ip).gains fun _ => ?_
    refine (execImage_uses sb ip).keeps (by simp) fun r => ?_
    split
    · exact (putEnd_uses sb ip _).last (F := {.iref c}) (by abel) fun _ => ⟨by abel, rfl⟩
    refine (iunlockput_uses sb ip).call (F := {.iref c}) (by abel) fun _ => ?_
    refine uses_endOp.drops fun _ => ?_
    -- without the inode, only memory is left
    refine (uses_memory _).keeps (by simp) fun r => ?_
    split
    · exact spends_pure
    refine (uses_memory _).keeps (by simp) fun r => ?_
    split
    · exact spends_pure
    refine (uses_memory _).keeps (by simp) fun r => ?_
    split
    · exact spends_pure
    · exact spends_pure

theorem sysExec_spends (path : Option (List UInt8)) (argc : Option Nat) :
    Spends R Token.Quiet {.iref c} e (sysExec sb path argc) fun _ => {.iref c} := by
  unfold sysExec
  split
  · exact exec_spends sb hc _ _
  · exact spends_pure

omit hc in
theorem setCwd_triple (x : Option Slot) :
    Triple (own tight) ok 0 e (setCwd x) fun _ T e' => T = 0 ∧ e' = { e with cwd := x } := by
  refine Triple.op (fun F _ => ⟨zero_le _, trivial⟩) fun F r g _ hr => ?_
  obtain rfl : g = _ := hr
  exact ⟨0, rfl, rfl, rfl⟩

theorem sysChdir_triple (path : Option (List UInt8)) :
    Triple (own tight) Token.Quiet {.iref c} e (sysChdir sb path) fun _ T e' =>
      (T = {.iref c} ∧ e' = e) ∨ ∃ ip, T = {.iref ip} ∧ e' = { e with cwd := some ip } := by
  refine spends_beginOp.within (F := {.iref c}) (by abel) (quiet_iref c) fun _ => ?_
  cases path with
  | none => exact (endOp_uses _).drops_last fun _ => .inl ⟨rfl, rfl⟩
  | some path =>
    refine (namei_uses sb hc path).call (F := 0) (by abel) fun r => ?_
    cases r with
    | none =>
      exact (endOp_uses _).last (F := {.iref c}) (by simp [inodeRef]) fun _ => .inl ⟨by abel, rfl⟩
    | some ip =>
      simp only [inodeRef, add_zero]
      refine (ilock_uses sb ip).gains fun _ => ?_
      refine (uses_node ip).keeps (by simp) fun x => ?_
      split
      · exact (putEnd_uses sb ip _).last (F := {.iref c}) (by abel) fun _ => .inl ⟨by abel, rfl⟩
      refine (iunlock_uses ip).drops fun _ => ?_
      refine (cwd_triple hc).anywhere (F := {.tx} + {.iref c} + {.iref ip}) (by abel) ?_
      rintro _ T e' ⟨rfl, rfl, rfl⟩
      refine (iput_uses sb _).call (F := {.iref ip}) (by abel) fun _ => ?_
      refine uses_endOp.drops fun _ => ?_
      refine (setCwd_triple _).anywhere (F := {.iref ip}) (by abel) ?_
      rintro _ T e'' ⟨rfl, rfl⟩
      exact Triple.pure (.inr ⟨ip, zero_add _, rfl⟩)

omit hc in
theorem openInode_triple (ip : Slot) (omode : Nat) :
    Triple (own tight) (fun _ => True) ({.tx} + {.iref ip} + {.lock ip}) e (openInode sb ip omode)
      fun _ T e' => (T = 0 ∧ e' = e) ∨ ∃ fd f, fd < NOFILE ∧ e.ofile fd = none ∧
        T = {.fref f} ∧ e' = e.setFd fd (some f) := by
  refine (uses_node ip).keeps (by simp) fun x => ?_
  extract_lets d
  split
  · exact (putEnd_uses sb ip _).last (F := 0) (by abel) fun _ => .inl ⟨rfl, rfl⟩
  refine uses_filealloc.gains fun r => ?_
  cases r with
  | none => exact (putEnd_uses sb ip _).last (F := 0) (by abel) fun _ => .inl ⟨rfl, rfl⟩
  | some f =>
    refine (fdalloc_triple f).anywhere
      (F := {.fref f} + {.blank f} + ({.tx} + {.iref ip} + {.lock ip})) (zero_add _).symm ?_
    rintro r T e' ⟨rfl, ⟨rfl, rfl⟩ | ⟨fd, rfl, hlt, hfree, rfl⟩⟩
    · refine (fileclose_blank sb f).call (F := {.tx} + {.iref ip} + {.lock ip}) (by abel) fun _ => ?_
      exact (putEnd_uses sb ip _).last (F := 0) (by abel) fun _ => .inl ⟨rfl, rfl⟩
    · refine (uses_file f).keeps (by simp) fun x => ?_
      have howns (y : File) (h : y.type = .inode ∨ y.type = .device) (r w : Bool) :
          File.owns { y with ip := ip, readable := r, writable := w } = {.iref ip} := by
        rcases h with h | h <;> simp [File.owns, h]
      refine (uses_setFile f ?_).call (F := {.lock ip} + ({.tx} + {.fref f})) ?_ fun _ => ?_
      · -- no pipe
        intro htype
        simp only at htype
        split at htype <;> cases htype
      · rw [howns]
        · abel
        · split
          · exact .inr rfl
          · exact .inl rfl
      rw [zero_add]
      refine (uses_when (itrunc_uses sb ip)).keeps (by simp) fun _ => ?_
      refine (iunlock_uses ip).drops fun _ => ?_
      refine uses_endOp.drops fun _ => ?_
      exact Triple.pure (.inr ⟨fd, f, hlt, hfree, rfl, rfl⟩)

theorem sysOpen_triple (path : Option (List UInt8)) (omode : Nat) :
    Triple (own tight) Token.Quiet {.iref c} e (sysOpen sb path omode) fun _ T e' =>
      (T = {.iref c} ∧ e' = e) ∨ ∃ fd f, fd < NOFILE ∧ e.ofile fd = none ∧
        T = {.fref f} + {.iref c} ∧ e' = e.setFd fd (some f) := by
  -- from the locked inode on
  have hopen (ip : Slot) : Triple (own tight) Token.Quiet
      ({.tx} + {.iref c} + ({.iref ip} + {.lock ip})) e (openInode sb ip omode) fun _ T e' =>
      (T = {.iref c} ∧ e' = e) ∨ ∃ fd f, fd < NOFILE ∧ e.ofile fd = none ∧
        T = {.fref f} + {.iref c} ∧ e' = e.setFd fd (some f) := by
    rw [show ({Token.tx} : Multiset Token) + {.iref c} + ({.iref ip} + {.lock ip}) =
      {.tx} + {.iref ip} + {.lock ip} + {.iref c} by abel]
    refine ((openInode_triple sb ip omode).frame fun _ _ => trivial).weaken (fun _ _ => trivial)
      |>.mono ?_
    rintro a T e' ⟨T', rfl, ⟨rfl, rfl⟩ | ⟨fd, f, hlt, hfree, rfl, rfl⟩⟩
    · exact .inl ⟨zero_add _, rfl⟩
    · exact .inr ⟨fd, f, hlt, hfree, rfl, rfl⟩
  unfold sysOpen
  split
  · exact Triple.pure (.inl ⟨rfl, rfl⟩)
  · next path =>
    refine spends_beginOp.within (F := {.iref c}) (by abel) (quiet_iref c) fun _ => ?_
    split
    · refine (create_uses sb hc path T_FILE 0 0).call (F := 0) (by abel) fun r => ?_
      cases r with
      | none =>
        exact (endOp_uses _).last (F := {.iref c}) (by simp [lockedRef]) fun _ => .inl ⟨by abel, rfl⟩
      | some ip =>
        rw [add_zero]
        exact hopen ip
    · refine (namei_uses sb hc path).call (F := 0) (by abel) fun r => ?_
      cases r with
      | none =>
        exact (endOp_uses _).last (F := {.iref c}) (by simp [inodeRef]) fun _ => .inl ⟨by abel, rfl⟩
      | some ip =>
        simp only [inodeRef, add_zero]
        refine (ilock_uses sb ip).gains fun _ => ?_
        refine (uses_node ip).keeps (by simp) fun x => ?_
        split
        · exact (putEnd_uses sb ip _).last (F := {.iref c}) (by abel) fun _ => .inl ⟨by abel, rfl⟩
        · rw [show ({Token.lock ip} : Multiset Token) + ({.tx} + {.iref c} + {.iref ip}) =
            {.tx} + {.iref c} + ({.iref ip} + {.lock ip}) by abel]
          exact hopen ip

end Paths

/-! ## Pipes -/

theorem pipealloc_uses : Uses (own tight) 0 e (pipealloc sb) fun
    | some (f₀, f₁) => {.fref f₀} + {.fref f₁}
    | none => 0 := by
  refine uses_filealloc.gains fun r => ?_
  cases r with
  | none => exact Triple.pure ⟨rfl, rfl⟩
  | some f₀ =>
    refine uses_filealloc.gains fun r => ?_
    cases r with
    | none =>
      refine (fileclose_blank sb f₀).call (F := 0) (add_comm _ _) fun _ => ?_
      exact Triple.pure ⟨rfl, rfl⟩
    | some f₁ =>
      refine uses_pipeKalloc.gains fun r => ?_
      cases r with
      | none =>
        refine (fileclose_blank sb f₀).call (F := {.fref f₁} + {.blank f₁})
          ((zero_add _).trans (add_comm _ _)) fun _ => ?_
        refine (fileclose_blank sb f₁).call (F := 0) (add_comm _ _) fun _ => ?_
        exact Triple.pure ⟨rfl, rfl⟩
      | some pi =>
        dsimp only
        refine (uses_file f₀).keeps (by simp) fun x₀ => ?_
        refine (uses_setFile f₀ (fun _ => rfl)).call (F := {.pend pi true} + {.fref f₁} + {.blank f₁} + {.fref f₀})
          ?_ fun _ => ?_
        · simp only [File.owns]
          abel
        refine (uses_file f₁).keeps (by simp) fun x₁ => ?_
        refine (uses_setFile f₁ (fun _ => rfl)).call (F := {.fref f₀} + {.fref f₁}) ?_ fun _ => ?_
        · simp only [File.owns]
          abel
        · exact Triple.pure ⟨zero_add _, rfl⟩

theorem setFd_clear (h : e.ofile fd = none) (f : FileNo) :
    (e.setFd fd (some f)).setFd fd none = e := by
  simp [Private.setFd, ← h]

theorem setFd_clear_of_ne {fd' : Nat} (h : e.ofile fd = none) (hne : fd ≠ fd') (f : FileNo)
    (x : Option FileNo) : ((e.setFd fd (some f)).setFd fd' x).setFd fd none = e.setFd fd' x := by
  simp only [Private.setFd, Private.mk.injEq, true_and, and_true]
  funext i
  by_cases hi : i = fd
  · subst hi
    rw [update_self, update_of_ne hne, h]
  · by_cases hi' : i = fd'
    · subst hi'
      rw [update_of_ne hi, update_self, update_self]
    · rw [update_of_ne hi, update_of_ne hi', update_of_ne hi,
        update_of_ne hi']

theorem copyoutFds_uses (fdarray fd₀ fd₁ : Nat) :
    Uses (own tight) 0 e (copyoutFds fdarray fd₀ fd₁) fun _ => 0 := by
  refine (uses_copyout _ _).keeps (by simp) fun r => ?_
  split
  · exact spends_pure
  · exact (uses_copyout _ _).keeps_last (by simp) fun _ => ⟨rfl, rfl⟩

theorem quiet_add {P Q : Multiset Token} (hP : ∀ r ∈ P, r.Quiet) (hQ : ∀ r ∈ Q, r.Quiet) :
    ∀ r ∈ P + Q, r.Quiet :=
  fun r hr => (mem_add.mp hr).elim (hP r) (hQ r)

theorem quiet_fref (f : FileNo) : ∀ r ∈ ({.fref f} : Multiset Token), r.Quiet := by
  intro r hr
  rw [mem_singleton.mp hr]
  trivial

theorem sysPipe_triple (h : Settled e.owed e) (fdarray : Nat) :
    Triple (own tight) Token.Quiet e.owed e (sysPipe sb fdarray) fun _ => Settled := by
  -- both ends are closed, and the table is as it was
  have hbad (rf wf : FileNo) : Triple (own tight) Token.Quiet ({.fref rf} + {.fref wf} + e.owed) e (do
      fileclose sb rf
      fileclose sb wf
      pure (-1 : Int)) fun _ => Settled := by
    refine (fileclose_spends sb rf).within (F := {.fref wf} + e.owed) (by abel)
      (quiet_add (quiet_fref wf) (quiet_owed e)) fun _ => ?_
    refine (fileclose_spends sb wf).within (F := e.owed) (by abel) (quiet_owed e) fun _ => ?_
    rw [zero_add]
    exact Triple.pure h
  refine (pipealloc_uses sb).call (F := e.owed) (by abel) fun r => ?_
  cases r with
  | none =>
    rw [zero_add]
    exact Triple.pure h
  | some r =>
    obtain ⟨rf, wf⟩ := r
    dsimp only
    refine (fdalloc_triple rf).anywhere (F := {.fref rf} + {.fref wf} + e.owed) (by abel) ?_
    rintro r T e' ⟨rfl, ⟨rfl, rfl⟩ | ⟨fd₀, rfl, hlt₀, hfree₀, rfl⟩⟩
    · rw [zero_add]
      exact hbad rf wf
    refine (fdalloc_triple wf).anywhere (F := {.fref rf} + {.fref wf} + e.owed) (by abel) ?_
    rintro r T e' ⟨rfl, ⟨rfl, rfl⟩ | ⟨fd₁, rfl, hlt₁, hfree₁, rfl⟩⟩
    · refine (setOfile_triple hlt₀ none).anywhere (F := {.fref rf} + {.fref wf} + e.owed) (by abel) ?_
      rintro _ T e' ⟨rfl, rfl⟩
      rw [zero_add, setFd_clear hfree₀]
      exact hbad rf wf
    refine (copyoutFds_uses _ _ _).call (F := {.fref rf} + {.fref wf} + e.owed) (by abel) fun r => ?_
    rw [zero_add]
    split
    · have hne : fd₀ ≠ fd₁ := by
        rintro rfl
        simp [Private.setFd] at hfree₁
      have hfree : e.ofile fd₁ = none := by
        rw [← hfree₁]
        exact (update_of_ne hne.symm _ _).symm
      refine (setOfile_triple hlt₀ none).anywhere (F := {.fref rf} + {.fref wf} + e.owed) (by abel) ?_
      rintro _ T e' ⟨rfl, rfl⟩
      refine (setOfile_triple hlt₁ none).anywhere (F := {.fref rf} + {.fref wf} + e.owed) rfl ?_
      rintro _ T e' ⟨rfl, rfl⟩
      rw [zero_add, setFd_clear_of_ne hfree₀ hne, setFd_clear hfree]
      exact hbad rf wf
    · refine Triple.pure ⟨h.live, h.kid, h.cwd, ?_⟩
      rw [owed_set hlt₁ hfree₁, owed_set hlt₀ hfree₀]
      abel

/-! ## `fork` and `exit` -/

theorem allocproc_triple (h : e.kid = none) :
    Triple (own tight) (fun _ => True) 0 e (op .allocproc : FsM (Option (Proc × Nat)))
      fun r T e' => T = 0 ∧ ((r = none ∧ e' = e) ∨ ∃ np pid o, r = some (np, pid) ∧
        (∀ fd, fd < NOFILE → o fd = none) ∧ e' = { e with kid := some ⟨np, o, none⟩ }) := by
  refine Triple.op (fun F _ => ⟨zero_le _, h⟩) fun F r g _ hr => ?_
  cases r with
  | none =>
    obtain rfl : g = _ := hr
    exact ⟨0, rfl, rfl, .inl ⟨rfl, rfl⟩⟩
  | some r =>
    obtain ⟨np, pid⟩ := r
    obtain ⟨o, ho, rfl⟩ := hr
    exact ⟨0, rfl, rfl, .inr ⟨np, pid, o, rfl, ho, rfl⟩⟩

theorem childOfile_triple (h : e.kid = some k) (hfd : fd < NOFILE) (f : FileNo) :
    Triple (own tight) (fun _ => True) 0 e (op (.childOfile k.np fd f) : FsM Unit) fun _ T e' =>
      T = 0 ∧ e' = { e with kid := some { k with ofile := update k.ofile fd (some f) } } := by
  refine Triple.op (fun F _ => ⟨zero_le _, hfd, k, h, rfl⟩) fun F r g _ hr => ?_
  obtain ⟨k', hk', rfl⟩ := hr
  obtain rfl := Option.some.inj (h.symm.trans hk')
  exact ⟨0, rfl, rfl, rfl⟩

theorem childCwd_triple (h : e.kid = some k) (ip : Slot) :
    Triple (own tight) (fun _ => True) 0 e (op (.childCwd k.np ip) : FsM Unit) fun _ T e' =>
      T = 0 ∧ e' = { e with kid := some { k with cwd := some ip } } := by
  refine Triple.op (fun F _ => ⟨zero_le _, k, h, rfl⟩) fun F r g _ hr => ?_
  obtain ⟨k', hk', rfl⟩ := hr
  obtain rfl := Option.some.inj (h.symm.trans hk')
  exact ⟨0, rfl, rfl, rfl⟩

theorem runnable_triple (h : e.kid = some k) (hc : k.cwd ≠ none) :
    Triple (own tight) Token.Quiet (fileRefs k.ofile + inodeRef k.cwd) e
      (op (.runnable k.np) : FsM Unit) fun _ T e' => T = 0 ∧ e' = { e with kid := none } := by
  have hquiet : ∀ r ∈ fileRefs k.ofile + inodeRef k.cwd, r.Quiet :=
    quiet_owed ⟨.live, k.ofile, k.cwd, none⟩
  refine Triple.op (fun F hF => ⟨zero_le _, k, h, rfl, hc, le_add_right _ _,
    quiet_add hquiet hF⟩) fun F r g _ hr => ?_
  obtain ⟨k', T, hk', hT, rfl⟩ := hr
  obtain rfl := Option.some.inj (h.symm.trans hk')
  exact ⟨0, by rw [zero_add, add_left_cancel hT], rfl, rfl⟩

theorem forkFiles_triple (np : Proc) (n fd : Nat) (hn : fd + n = NOFILE) (hk : e.kid = some k)
    (hnp : k.np = np) (hfree : ∀ i, fd ≤ i → i < NOFILE → k.ofile i = none) :
    Triple (own tight) Token.Quiet (fileRefs e.ofile + fileRefs k.ofile) e (forkFiles np n fd)
      fun _ T e' => ∃ o, T = fileRefs e.ofile + fileRefs o ∧
        e' = { e with kid := some { k with ofile := o } } := by
  induction n generalizing e k fd with
  | zero => exact Triple.pure ⟨k.ofile, rfl, by rw [← hk]⟩
  | succ n ih =>
    have hfd : fd < NOFILE := by omega
    refine (ofile_triple hfd).anywhere (F := fileRefs e.ofile + fileRefs k.ofile) (by abel) ?_
    rintro r T e' ⟨hr, rfl, rfl⟩
    rw [zero_add]
    cases r with
    | none => exact ih (fd + 1) (by omega) hk hnp fun i hi => hfree i (by omega)
    | some f =>
      -- the reference that the parent has is the one that filedup needs
      have hparent := fileRefs_update e'.ofile hfd none
      rw [← hr] at hparent
      simp only [fileRef, add_zero] at hparent
      have hchild := fileRefs_update k.ofile hfd (some f)
      rw [hfree fd le_rfl hfd] at hchild
      simp only [fileRef, add_zero] at hchild
      refine (spends_filedup f).within
        (F := fileRefs (update e'.ofile fd none) + fileRefs k.ofile) ?_
        (quiet_add (quiet_fileRefs _) (quiet_fileRefs _)) fun _ => ?_
      · rw [← hparent]
        abel
      subst hnp
      refine (childOfile_triple hk hfd f).anywhere
        (F := fileRefs e'.ofile + fileRefs (update k.ofile fd (some f))) ?_ ?_
      · rw [hchild, ← hparent]
        abel
      rintro _ T e'' ⟨rfl, rfl⟩
      rw [zero_add]
      refine ih (e := { e' with kid := some { k with ofile := update k.ofile fd (some f) } })
        (k := { k with ofile := update k.ofile fd (some f) }) (fd + 1) (by omega) rfl rfl ?_
      intro i hi hlt
      show update k.ofile fd (some f) i = none
      rw [update_of_ne (by omega)]
      exact hfree i (by omega) hlt

theorem fileRefs_of_none {o : Nat → Option FileNo} (h : ∀ fd, fd < NOFILE → o fd = none) :
    fileRefs o = 0 :=
  Finset.sum_eq_zero fun fd hfd => by rw [h fd (Finset.mem_range.mp hfd), fileRef]

theorem fork_triple (h : Settled e.owed e) :
    Triple (own tight) Token.Quiet e.owed e fork fun _ => Settled := by
  obtain ⟨c, hc⟩ := Option.ne_none_iff_exists'.mp h.cwd
  refine (allocproc_triple h.kid).anywhere (F := e.owed) (by abel) ?_
  rintro r T e' ⟨rfl, ⟨rfl, rfl⟩ | ⟨np, pid, o, rfl, ho, rfl⟩⟩
  · rw [zero_add]
    exact Triple.pure h
  refine (forkFiles_triple np NOFILE 0 (zero_add _) (k := ⟨np, o, none⟩) rfl rfl
    fun i _ hi => ho i hi).call (F := {.iref c}) ?_ (quiet_iref c) (fun _ h => h) ?_
  · simp only [Private.owed, hc, inodeRef, fileRefs_of_none ho]
    abel
  rintro _ T e' ⟨o', rfl, rfl⟩
  refine (cwd_triple (e := { e with kid := some ⟨np, o', none⟩ }) hc).anywhere
    (F := fileRefs e.ofile + fileRefs o' + {.iref c}) (by abel) ?_
  rintro r T e' ⟨hr, rfl, rfl⟩
  rw [hr]
  refine (idup_uses c).call (F := fileRefs e.ofile + fileRefs o') (by abel) fun ip => ?_
  refine (childCwd_triple (k := ⟨np, o', none⟩) rfl ip).anywhere
    (F := {.iref ip} + {.iref c} + (fileRefs e.ofile + fileRefs o')) (by abel) ?_
  rintro _ T e' ⟨rfl, rfl⟩
  refine (runnable_triple (k := ⟨np, o', some ip⟩) rfl (Option.some_ne_none _)).call
    (F := fileRefs e.ofile + {.iref c}) ?_ (quiet_add (quiet_fileRefs _) (quiet_iref c))
    (fun _ h => h) ?_
  · simp only [inodeRef]
    abel
  rintro _ T e' ⟨rfl, rfl⟩
  refine Triple.pure ⟨h.live, rfl, h.cwd, ?_⟩
  simp only [Private.owed, hc, inodeRef, zero_add]

theorem exitFiles_triple (n fd : Nat) (hn : fd + n = NOFILE)
    (hdone : ∀ i, i < fd → e.ofile i = none) :
    Triple (own tight) Token.Quiet (fileRefs e.ofile) e (exitFiles sb n fd) fun _ T e' =>
      ∃ o, T = 0 ∧ (∀ i, i < NOFILE → o i = none) ∧ e' = { e with ofile := o } := by
  induction n generalizing e fd with
  | zero =>
    have hall : ∀ i, i < NOFILE → e.ofile i = none := fun i hi => hdone i (by omega)
    exact Triple.pure ⟨e.ofile, fileRefs_of_none hall, hall, rfl⟩
  | succ n ih =>
    have hfd : fd < NOFILE := by omega
    refine (ofile_triple hfd).anywhere (F := fileRefs e.ofile) (by abel) ?_
    rintro r T e' ⟨hr, rfl, rfl⟩
    rw [zero_add]
    cases r with
    | none =>
      refine ih (fd + 1) (by omega) fun i hi => ?_
      rcases Nat.lt_succ_iff_lt_or_eq.mp hi with hi | rfl
      · exact hdone i hi
      · exact hr.symm
    | some f =>
      have hrefs := fileRefs_update e'.ofile hfd none
      rw [← hr] at hrefs
      simp only [fileRef, add_zero] at hrefs
      refine (fileclose_spends sb f).within (F := fileRefs (update e'.ofile fd none)) ?_
        (quiet_fileRefs _) fun _ => ?_
      · rw [← hrefs]
        abel
      refine (setOfile_triple hfd none).anywhere
        (F := fileRefs (update e'.ofile fd none)) rfl ?_
      rintro _ T e'' ⟨rfl, rfl⟩
      rw [zero_add]
      refine ih (e := e'.setFd fd none) (fd + 1) (by omega) fun i hi => ?_
      show update e'.ofile fd none i = none
      rcases Nat.lt_succ_iff_lt_or_eq.mp hi with hi | rfl
      · rw [update_of_ne (by omega)]
        exact hdone i hi
      · rw [update_self]

structure Vacant (T : Multiset Token) (e : Private) : Prop where
  owed : T = 0
  kid : e.kid = none
  cwd : e.cwd = none
  ofile : ∀ fd, fd < NOFILE → e.ofile fd = none

theorem zombie_triple (h : Vacant 0 e) :
    Triple (own tight) (fun _ => False) 0 e (op .zombie : FsM Unit) fun _ T e' =>
      T = 0 ∧ e' = { e with pstate := .zombie } := by
  refine Triple.op (fun F hF => ⟨zero_le _, ?_, h.kid, h.cwd, h.ofile⟩) fun F r g _ hr => ?_
  · rw [zero_add]
    exact eq_zero_of_forall_notMem hF
  · obtain rfl : g = _ := hr
    exact ⟨0, rfl, rfl, rfl⟩

/-- `exit` gives back everything. Nothing is owned beside it, because it does not come back. -/
theorem exit_triple (h : Settled e.owed e) (init : Bool) :
    Triple (own tight) (fun _ => False) e.owed e (exit sb init) fun _ T e' =>
      e'.pstate = .zombie ∧ Vacant T e' := by
  obtain ⟨c, hc⟩ := Option.ne_none_iff_exists'.mp h.cwd
  cases init with
  | true => exact triple_panic _
  | false =>
    unfold exit
    simp only [Bool.false_eq_true]
    refine (exitFiles_triple sb NOFILE 0 (zero_add _) nofun).call (F := {.iref c}) ?_ (quiet_iref c)
      nofun ?_
    · simp only [Private.owed, hc, inodeRef]
    rintro _ T e' ⟨o, rfl, ho, rfl⟩
    refine Triple.call spends_beginOp (F := {.iref c}) rfl (quiet_iref c) nofun ?_
    rintro _ T e' ⟨rfl, rfl⟩
    refine (cwd_triple (e := { e with ofile := o }) hc).anywhere (F := {.tx} + {.iref c}) (by abel) ?_
    rintro r T e' ⟨hr, rfl, rfl⟩
    rw [hr]
    refine (iput_uses sb c).call (F := 0) (by abel) fun _ => ?_
    refine uses_endOp.call (F := 0) rfl fun _ => ?_
    refine (setCwd_triple none).anywhere (F := 0) rfl ?_
    rintro _ T e' ⟨rfl, rfl⟩
    refine (zombie_triple (e := { e with ofile := o, cwd := none }) ⟨rfl, h.kid, rfl, ho⟩).mono ?_
    rintro _ T e' ⟨rfl, rfl⟩
    exact ⟨rfl, rfl, h.kid, rfl, ho⟩

/-! ## All calls -/

def Ledger.Rest (g : Ledger) : Prop :=
  match g.2.pstate with
  | .live => Settled g.1 g.2
  | .used => g.1 = 0 ∧ g.2.kid = none
  | .unused | .zombie => Vacant g.1 g.2

def Call.rules : Call → Rules sig Ledger
  | .read _ _ _ => own false
  | _ => own true

theorem Settled.of_spends {c : FsM Int} (h : Settled e.owed e) (hc : ∀ ip, e.cwd = some ip →
      Spends (own tight) Token.Quiet {.iref ip} e c fun _ => {.iref ip}) :
    Triple (own tight) Token.Quiet e.owed e c fun _ => Settled := by
  obtain ⟨ip, hip⟩ := Option.ne_none_iff_exists'.mp h.cwd
  have howed : e.owed = {.iref ip} + fileRefs e.ofile := by
    rw [Private.owed, hip, inodeRef]
    exact add_comm _ _
  rw [howed]
  refine ((hc ip hip).frame (quiet_fileRefs _)).mono ?_
  rintro _ T e' ⟨T', rfl, rfl, rfl⟩
  exact ⟨h.live, h.kid, h.cwd, howed.symm⟩

theorem Settled.of_file {c : FileNo → FsM Int} (h : Settled e.owed e) (fd : Int)
    (hc : ∀ f, Spends (own tight) Token.Quiet 0 e (c f) fun _ => 0) :
    Triple (own tight) Token.Quiet e.owed e (do
      match ← argfd fd with
      | none => pure (-1)
      | some f => c f) fun _ => Settled := by
  refine (argfd_triple fd).anywhere (F := e.owed) (by abel) ?_
  rintro r T e' ⟨rfl, rfl, -⟩
  cases r with
  | none => exact Triple.pure ⟨h.live, h.kid, h.cwd, zero_add _⟩
  | some f =>
    refine ((hc f).frame (quiet_owed e')).mono ?_
    rintro _ T e'' ⟨T', rfl, rfl, rfl⟩
    exact ⟨h.live, h.kid, h.cwd, zero_add _⟩

/-- **Every call keeps to the rules**, on every path through it and whatever it is answered, and owns
at its end what it owned at its start. -/
theorem Call.obeys {g : Ledger} (hg : g.Rest) (hl : g.2.pstate = .live) (x : Call) :
    (x.code sb).Obeys x.rules (fun _ => Ledger.Rest) g := by
  obtain ⟨T, e⟩ := g
  have h : Settled T e := by
    simp only [Ledger.Rest] at hg hl
    rwa [hl] at hg
  obtain rfl := h.owed
  obtain ⟨c, hc⟩ := Option.ne_none_iff_exists'.mp h.cwd
  have howed : e.owed = {.iref c} + fileRefs e.ofile := by
    rw [Private.owed, hc, inodeRef]
    exact add_comm _ _
  have hrest {tight : Bool} {k : Token → Prop} {x : FsM Int}
      (hx : Triple (own tight) k e.owed e x fun _ => Settled) :
      x.Obeys (own tight) (fun _ => Ledger.Rest) (e.owed, e) := by
    refine hx.obeys.mono _ fun _ g' hs => ?_
    simp only [Ledger.Rest, hs.live]
    exact hs
  cases x with
  | dup fd => exact hrest (sysDup_triple h fd)
  | read fd addr n =>
    exact hrest (h.of_file fd fun f => (fileread_uses sb f addr n).weaken fun _ _ => trivial)
  | write fd addr n => exact hrest (h.of_file fd fun f => filewrite_spends sb f addr n)
  | close fd => exact hrest (sysClose_triple sb h fd)
  | fstat fd addr =>
    exact hrest (h.of_file fd fun f => (filestat_uses sb f addr).weaken fun _ _ => trivial)
  | link old new => exact hrest (h.of_spends fun ip hip => sysLink_spends sb hip old new)
  | unlink path => exact hrest (h.of_spends fun ip hip => sysUnlink_spends sb hip path)
  | «open» path omode =>
    refine hrest (k := Token.Quiet) ?_
    rw [howed]
    refine ((sysOpen_triple sb hc path omode).frame (quiet_fileRefs _)).mono ?_
    rintro _ T e' ⟨T', rfl, ⟨rfl, rfl⟩ | ⟨fd, f, hlt, hfree, rfl, rfl⟩⟩
    · exact ⟨h.live, h.kid, h.cwd, howed.symm⟩
    · refine ⟨h.live, h.kid, h.cwd, ?_⟩
      rw [owed_set hlt hfree, howed]
      abel
  | mkdir path => exact hrest (h.of_spends fun ip hip => sysCreate_spends sb hip path _ _ _)
  | mknod path major minor => exact hrest (h.of_spends fun ip hip => sysCreate_spends sb hip path _ _ _)
  | chdir path =>
    refine hrest (k := Token.Quiet) ?_
    rw [howed]
    refine ((sysChdir_triple sb hc path).frame (quiet_fileRefs _)).mono ?_
    rintro _ T e' ⟨T', rfl, ⟨rfl, rfl⟩ | ⟨ip, rfl, rfl⟩⟩
    · exact ⟨h.live, h.kid, h.cwd, howed.symm⟩
    · exact ⟨h.live, h.kid, Option.some_ne_none _, add_comm _ _⟩
  | exec path argc => exact hrest (h.of_spends fun ip hip => sysExec_spends sb hip path argc)
  | pipe fdarray => exact hrest (sysPipe_triple sb h fdarray)
  | fork => exact hrest (fork_triple h)
  | exit init =>
    have hexit : Triple (own true) (fun _ => False) e.owed e (do Fs.exit sb init; pure 0)
        fun (_ : Int) T e' => e'.pstate = .zombie ∧ Vacant T e' :=
      (exit_triple sb h init).bind fun _ T e' hT => Triple.pure hT
    refine hexit.obeys.mono _ fun _ g' hs => ?_
    simp only [Ledger.Rest, hs.1]
    exact hs.2

end ZeptOS.Fs
