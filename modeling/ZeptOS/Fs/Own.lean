import Mathlib.Algebra.BigOperators.Group.Finset.Basic
import Mathlib.Tactic.Abel
import ZeptOS.Fs.State
import ZeptOS.Lib.Triple

/-!
# What a process owns

A process in the file system owns tokens: its transaction, the locks that it has, the references
that it is to give back. Nobody can see a reference that a local variable holds, and so the count in
the inode table is only right when they are counted too; this is what `Token.iref` is for.

`own` are the rules. An operation needs some tokens, takes some and gives some. With a `tight` set of
rules whatever is logged is logged in a transaction; `sys_read`, which is never in one, is not held to
that, because it logs only if a file has a hole.
-/

namespace ZeptOS.Fs

open Lib Lib.Code Multiset

variable {K P take : Multiset Token}

inductive Token where
  /-- between `begin_op` and `end_op` -/
  | tx
  | lock (ip : Slot)
  | buf (b : Nat)
  /-- a reference to an inode, to be given back with `iput` -/
  | iref (ip : Slot)
  /-- a reference to a file, to be given back with `fileclose` -/
  | fref (f : FileNo)
  /-- a file that `filealloc` has just found -/
  | blank (f : FileNo)
  /-- an end of a pipe, to be given back with `pipeclose` -/
  | pend (pi : Nat) (writable : Bool)
  deriving DecidableEq

def Token.Quiet : Token → Prop
  | .tx | .lock _ | .buf _ | .blank _ => False
  | .iref _ | .fref _ | .pend _ _ => True

def File.owns (x : File) : Multiset Token :=
  match x.type with
  | .none => 0
  | .pipe => {.pend x.pipe x.writable}
  | .inode | .device => {.iref x.ip}

def File.OneEnd (x : File) : Prop := x.type = .pipe → x.readable = !x.writable

structure Kid where
  np : Proc
  ofile : Nat → Option FileNo
  cwd : Option Slot

/-- What only the process itself changes, in its entry of `proc`. -/
structure Private where
  pstate : ProcState
  ofile : Nat → Option FileNo
  cwd : Option Slot
  kid : Option Kid

abbrev Ledger := Multiset Token × Private

def fileRef : Option FileNo → Multiset Token
  | some f => {.fref f}
  | none => 0

def inodeRef : Option Slot → Multiset Token
  | some ip => {.iref ip}
  | none => 0

def fileRefs (o : Nat → Option FileNo) : Multiset Token := ∑ fd ∈ Finset.range NOFILE, fileRef (o fd)

def Private.owed (e : Private) : Multiset Token := fileRefs e.ofile + inodeRef e.cwd

def need : Op → Multiset Token
  | .enter _ => {.tx}
  | .bstore b _ | .logWrite b | .brelse b => {.buf b}
  | .endOp => {.tx}
  | .idup ip | .iputDrop ip => {.iref ip}
  | .iputTest ip => {.tx} + {.iref ip}
  | .releasesleep ip | .node ip | .setNode ip _ => {.lock ip}
  | .filedup f | .filecloseRef f => {.fref f}
  | .setFile f x => {.blank f} + x.owns
  | .pipeclose pi w => {.pend pi w}
  | _ => 0

def guard (tight : Bool) (g : Ledger) : Op → Prop
  | .logWrite _ => tight = true → .tx ∈ g.1
  | .beginOp => ∀ r ∈ g.1, r.Quiet
  | .filedup f => .blank f ∉ g.1
  | .setFile _ x => x.OneEnd
  | .ofile fd | .setOfile fd _ => fd < NOFILE
  | .cwd => g.2.cwd ≠ none
  | .allocproc => g.2.kid = none
  | .childOfile np fd _ => fd < NOFILE ∧ ∃ k, g.2.kid = some k ∧ k.np = np
  | .childCwd np _ => ∃ k, g.2.kid = some k ∧ k.np = np
  | .runnable np => ∃ k, g.2.kid = some k ∧ k.np = np ∧ k.cwd ≠ none ∧
      fileRefs k.ofile + inodeRef k.cwd ≤ g.1 ∧ ∀ r ∈ g.1, r.Quiet
  | .zombie => g.1 = 0 ∧ g.2.kid = none ∧ g.2.cwd = none ∧ ∀ fd, fd < NOFILE → g.2.ofile fd = none
  | _ => True

def Ledger.step (g : Ledger) : (o : Op) → o.Ans → Ledger → Prop
  | .beginOp, _, g' => Moves 0 {.tx} g g'
  | .endOp, _, g' => Moves {.tx} 0 g g'
  | .bread b, _, g' => Moves 0 {.buf b} g g'
  | .brelse b, _, g' => Moves {.buf b} 0 g g'
  | .iget _ _, ip, g' => Moves 0 {.iref ip} g g'
  | .idup ip, _, g' => Moves 0 {.iref ip} g g'
  | .iputTest ip, true, g' => Moves 0 {.lock ip} g g'
  | .iputTest ip, false, g' => Moves {.iref ip} 0 g g'
  | .iputDrop ip, _, g' => Moves {.iref ip} 0 g g'
  | .acquiresleep ip, _, g' => Moves 0 {.lock ip} g g'
  | .releasesleep ip, _, g' => Moves {.lock ip} 0 g g'
  | .filealloc, some f, g' => Moves 0 ({.fref f} + {.blank f}) g g'
  | .filedup f, _, g' => Moves 0 {.fref f} g g'
  | .filecloseRef f, r, g' =>
    if .blank f ∈ g.1 then
      (∃ ff, r = some ff ∧ ff.type = .none) ∧ Moves ({.fref f} + {.blank f}) 0 g g'
    else
      match r with
      | none => Moves {.fref f} 0 g g'
      | some ff => Moves {.fref f} ff.owns g g'
  | .setFile f x, _, g' => Moves ({.blank f} + x.owns) 0 g g'
  | .pipeKalloc, some pi, g' => Moves 0 ({.pend pi false} + {.pend pi true}) g g'
  | .pipeclose pi w, _, g' => Moves {.pend pi w} 0 g g'
  | .ofile fd, r, g' => r = g.2.ofile fd ∧ g' = g
  | .setOfile fd f, _, g' => g' = (g.1, { g.2 with ofile := Function.update g.2.ofile fd f })
  | .cwd, ip, g' => g.2.cwd = some ip ∧ g' = g
  | .setCwd ip, _, g' => g' = (g.1, { g.2 with cwd := ip })
  | .allocproc, some (np, _), g' => ∃ o, (∀ fd, fd < NOFILE → o fd = none) ∧
      g' = (g.1, { g.2 with kid := some ⟨np, o, none⟩ })
  | .childOfile _ fd f, _, g' => ∃ k, g.2.kid = some k ∧
      g' = (g.1, { g.2 with kid := some { k with ofile := Function.update k.ofile fd (some f) } })
  | .childCwd _ ip, _, g' => ∃ k, g.2.kid = some k ∧
      g' = (g.1, { g.2 with kid := some { k with cwd := some ip } })
  | .runnable _, _, g' => ∃ k T, g.2.kid = some k ∧
      g.1 = fileRefs k.ofile + inodeRef k.cwd + T ∧ g' = (T, { g.2 with kid := none })
  | .zombie, _, g' => g' = (g.1, { g.2 with pstate := .zombie })
  | _, _, g' => g' = g

def own (tight : Bool) : Rules sig Ledger where
  allow g o := need o ≤ g.1 ∧ guard tight g o
  step := Ledger.step

/-! ## The operations -/

/-- The operations on buffers, transactions and inodes, and those that only ask. -/
def Op.Within : Op → Prop
  | .filealloc | .filedup _ | .filecloseRef _ | .setFile _ _ | .setOff _ _ | .pipeKalloc
  | .pipeclose _ _ | .setOfile _ _ | .setCwd _ | .allocproc | .childOfile _ _ _ | .childCwd _ _
  | .runnable _ | .zombie => False
  | _ => True

class Owning (R : Rules sig Ledger) where
  tight : Bool
  allow {g : Ledger} {o : Op} : o.Within → need o ≤ g.1 → guard tight g o → R.allow g o
  step {g g' : Ledger} {o : Op} {r : o.Ans} : R.step g o r g' → g.step o r g'

instance (tight : Bool) : Owning (own tight) := ⟨tight, fun _ => And.intro, id⟩

/-- A function that can be called beside whatever else is owned. -/
abbrev Uses {α : Type} (R : Rules sig Ledger) (P : Multiset Token) (e : Private) (c : FsM α)
    (X : α → Multiset Token) : Prop :=
  Spends R (fun _ => True) P e c X

section Ops

variable {R : Rules sig Ledger} [Owning R] {tight : Bool} {e : Private}

theorem triple_panic {α : Type} {ok : Token → Prop} {Q : α → Multiset Token → Private → Prop}
    (x : Panic) : Triple R ok P e (panic x : FsM α) Q :=
  fun _ _ => ⟨Owning.allow trivial (zero_le _) trivial, nofun⟩

theorem moves_nothing {g g' : Ledger} (h : g' = g) : Moves 0 0 g g' :=
  ⟨g.1, (zero_add _).symm, by rw [h, zero_add], congrArg Prod.snd h⟩

/-- The rules allow the operation to who has what it needs. -/
def Allows (R : Rules sig Ledger) [Owning R] (o : Op) : Prop :=
  ∀ {g : Ledger}, need o ≤ g.1 → guard (Owning.tight R) g o → R.allow g o

theorem uses_moves {o : Op} {give : o.Ans → Multiset Token} (ha : Allows R o)
    (hn : need o ≤ take + K) (hg : ∀ g : Ledger, take + K ≤ g.1 → guard (Owning.tight R) g o)
    (hs : ∀ (g g' : Ledger) (r : o.Ans), g.step o r g' → Moves take (give r) g g') :
    Uses R (take + K) e (op o) fun r => give r + K := by
  refine Triple.op (fun F _ => ?_) fun F r g' _ hr => ?_
  · exact ha (hn.trans (le_add_right _ _)) (hg _ (le_add_right _ _))
  · obtain ⟨T, hT, hg', he⟩ := hs _ _ _ (Owning.step hr)
    have hKF : K + F = T := by
      simp only [add_assoc] at hT
      exact add_left_cancel hT
    exact ⟨give r + K, by rw [hg', ← hKF, add_assoc], rfl, he⟩

theorem uses_op (o : Op) {give : o.Ans → Multiset Token} (ha : Allows R o) (hn : need o = take)
    (hg : ∀ g : Ledger, guard (Owning.tight R) g o)
    (hs : ∀ (g g' : Ledger) (r : o.Ans), g.step o r g' → Moves take (give r) g g') :
    Uses R take e (op o) give := by
  simpa using uses_moves (K := 0) ha (by simp [hn]) (fun g _ => hg g) hs

theorem uses_adds (o : Op) {give : o.Ans → Multiset Token} (ha : Allows R o) (hn : need o = K)
    (hg : ∀ g : Ledger, guard (Owning.tight R) g o)
    (hs : ∀ (g g' : Ledger) (r : o.Ans), g.step o r g' → Moves 0 (give r) g g') :
    Uses R K e (op o) fun r => give r + K := by
  simpa using uses_moves (e := e) (K := K) ha (by simp [hn]) (fun g _ => hg g) hs

theorem uses_same (o : Op) (ha : Allows R o) (hn : need o ≤ K)
    (hg : ∀ g : Ledger, K ≤ g.1 → guard (Owning.tight R) g o)
    (hs : ∀ (g g' : Ledger) (r : o.Ans), g.step o r g' → g' = g) :
    Uses R K e (op o) fun _ => K := by
  simpa using uses_moves (e := e) (K := K) ha (by simpa using hn) (by simpa using hg)
    fun g g' r h => moves_nothing (hs g g' r h)

omit [Owning R] in
theorem uses_when {c : Prop} [Decidable c] {x : FsM Unit} (h : Uses R P e x fun _ => P) :
    Uses R P e (when c x) fun _ => P := by
  unfold when
  split
  · exact h
  · exact spends_pure

theorem uses_enter (f : Fn) : Uses R {.tx} e (enter f) fun _ => {.tx} :=
  uses_same (.enter f) (Owning.allow trivial) le_rfl (fun _ _ => trivial) fun _ _ _ h => h

theorem uses_bread (b : Nat) : Uses R 0 e (bread b) fun _ => {.buf b} :=
  uses_op (.bread b) (Owning.allow trivial) rfl (fun _ => trivial) fun _ _ _ h => h

theorem uses_bstore (b : Nat) (data : Block) :
    Uses R {.buf b} e (bstore b data) fun _ => {.buf b} :=
  uses_same (.bstore b data) (Owning.allow trivial) le_rfl (fun _ _ => trivial) fun _ _ _ h => h

/-- What lets a process log: its transaction, if the rules are tight. -/
def Warrant (R : Rules sig Ledger) [Owning R] (W : Multiset Token) : Prop :=
  Owning.tight R = true → .tx ∈ W

theorem uses_logWrite {W : Multiset Token} (hW : Warrant R W) (b : Nat) :
    Uses R ({.buf b} + W) e (logWrite b) fun _ => {.buf b} + W :=
  uses_same (.logWrite b) (Owning.allow trivial) (le_add_right _ _)
    (fun _ hg ht => mem_of_le hg (subset_add_right (hW ht))) fun _ _ _ h => h

theorem uses_brelse (b : Nat) : Uses R {.buf b} e (brelse b) fun _ => 0 :=
  uses_op (.brelse b) (Owning.allow trivial) rfl (fun _ => trivial) fun _ _ _ h => h

theorem uses_endOp : Uses R {.tx} e endOp fun _ => 0 :=
  uses_op .endOp (Owning.allow trivial) rfl (fun _ => trivial) fun _ _ _ h => h

theorem spends_beginOp : Spends R Token.Quiet 0 e beginOp fun _ => {.tx} := by
  refine Triple.op (fun F hF => ?_) fun F r g' _ hr => ?_
  · exact Owning.allow trivial (zero_le _) (by simpa [guard] using hF)
  · obtain ⟨T, hT, hg', he⟩ := Owning.step hr
    simp only [zero_add] at hT
    exact ⟨{.tx}, by rw [hg', hT], rfl, he⟩

theorem uses_iget (dev inum : Nat) : Uses R 0 e (iget dev inum) fun ip => {.iref ip} :=
  uses_op (.iget dev inum) (Owning.allow trivial) rfl (fun _ => trivial) fun _ _ _ h => h

theorem uses_idup (ip : Slot) :
    Uses R {.iref ip} e (op (.idup ip)) fun _ => {.iref ip} + {.iref ip} :=
  uses_adds (.idup ip) (Owning.allow trivial) rfl (fun _ => trivial) fun _ _ _ h => h

/-- `iput`, up to its first release, keeps the reference if it has found that it frees the inode. -/
theorem uses_iputTest (ip : Slot) : Uses R ({.tx} + {.iref ip}) e (iputTest ip) fun r =>
    if r = true then {.tx} + {.iref ip} + {.lock ip} else {.tx} := by
  refine Triple.op (fun F _ => ?_) fun F r g' _ hr => ?_
  · exact Owning.allow trivial (le_add_right _ _) trivial
  replace hr := Owning.step hr
  cases r with
  | true =>
    obtain ⟨T, hT, hg', he⟩ := hr
    refine ⟨{.tx} + {.iref ip} + {.lock ip}, ?_, rfl, he⟩
    rw [zero_add] at hT
    rw [hg', ← hT]
    exact (add_left_comm _ _ _).trans (add_assoc _ _ _).symm
  | false =>
    obtain ⟨T, hT, hg', he⟩ := hr
    refine ⟨{.tx}, ?_, rfl, he⟩
    have hT' : {Token.iref ip} + ({.tx} + F) = {.iref ip} + T := by
      rw [← hT]
      show _ = {Token.tx} + {.iref ip} + F
      abel
    rw [hg', zero_add, ← add_left_cancel hT']

theorem uses_iputDrop (ip : Slot) : Uses R {.iref ip} e (iputDrop ip) fun _ => 0 :=
  uses_op (.iputDrop ip) (Owning.allow trivial) rfl (fun _ => trivial) fun _ _ _ h => h

theorem uses_ident (ip : Slot) : Uses R 0 e (ident ip) fun _ => 0 :=
  uses_same (.ident ip) (Owning.allow trivial) le_rfl (fun _ _ => trivial) fun _ _ _ h => h

theorem uses_acquiresleep (ip : Slot) : Uses R 0 e (acquiresleep ip) fun _ => {.lock ip} :=
  uses_op (.acquiresleep ip) (Owning.allow trivial) rfl (fun _ => trivial) fun _ _ _ h => h

theorem uses_releasesleep (ip : Slot) : Uses R {.lock ip} e (releasesleep ip) fun _ => 0 :=
  uses_op (.releasesleep ip) (Owning.allow trivial) rfl (fun _ => trivial) fun _ _ _ h => h

theorem uses_holdingsleep (ip : Slot) : Uses R 0 e (holdingsleep ip) fun _ => 0 :=
  uses_same (.holdingsleep ip) (Owning.allow trivial) le_rfl (fun _ _ => trivial) fun _ _ _ h => h

theorem uses_node (ip : Slot) : Uses R {.lock ip} e (node ip) fun _ => {.lock ip} :=
  uses_same (.node ip) (Owning.allow trivial) le_rfl (fun _ _ => trivial) fun _ _ _ h => h

theorem uses_setNode (ip : Slot) (n : Node) :
    Uses R {.lock ip} e (setNode ip n) fun _ => {.lock ip} :=
  uses_same (.setNode ip n) (Owning.allow trivial) le_rfl (fun _ _ => trivial) fun _ _ _ h => h

theorem uses_filealloc : Uses (own tight) 0 e filealloc fun
    | some f => {.fref f} + {.blank f}
    | none => 0 := by
  refine uses_op .filealloc And.intro rfl (fun _ => trivial) fun g g' r h => ?_
  cases r with
  | some f => exact h
  | none => exact moves_nothing h

theorem spends_filedup (f : FileNo) :
    Spends (own tight) Token.Quiet {.fref f} e (filedup f) fun _ => {.fref f} + {.fref f} := by
  refine Triple.op (fun F hF => ⟨le_add_right _ _, ?_⟩) fun F r g _ hr => ?_
  · intro hb
    rcases mem_add.mp hb with hb | hb
    · exact nomatch mem_singleton.mp hb
    · exact hF _ hb
  · obtain ⟨T, hT, hg, he⟩ := hr
    rw [zero_add] at hT
    exact ⟨{.fref f} + {.fref f}, by rw [hg, ← hT, add_assoc], rfl, he⟩

theorem uses_file (f : FileNo) : Uses R 0 e (file f) fun _ => 0 :=
  uses_same (.file f) (Owning.allow trivial) le_rfl (fun _ _ => trivial) fun _ _ _ h => h

theorem uses_setFile (f : FileNo) {x : File} (hx : x.OneEnd) :
    Uses (own tight) ({.blank f} + x.owns) e (setFile f x) fun _ => 0 :=
  uses_op (.setFile f x) And.intro rfl (fun _ => hx) fun _ _ _ h => h

theorem uses_setOff (f : FileNo) (off : Nat) : Uses (own tight) 0 e (setOff f off) fun _ => 0 :=
  uses_same (.setOff f off) And.intro le_rfl (fun _ _ => trivial) fun _ _ _ h => h

theorem uses_pipeKalloc : Uses (own tight) 0 e pipeKalloc fun
    | some pi => {.pend pi false} + {.pend pi true}
    | none => 0 := by
  refine uses_op .pipeKalloc And.intro rfl (fun _ => trivial) fun g g' r h => ?_
  cases r with
  | some f => exact h
  | none => exact moves_nothing h

theorem uses_pipeclose (pi : Nat) (w : Bool) : Uses (own tight) {.pend pi w} e (pipeclose pi w) fun _ => 0 :=
  uses_op (.pipeclose pi w) And.intro rfl (fun _ => trivial) fun _ _ _ h => h

theorem uses_pipeIo (w : Bool) (pi addr : Nat) (n : Int) :
    Uses R 0 e (pipeIo w pi addr n) fun _ => 0 :=
  uses_same (.pipeIo w pi addr n) (Owning.allow trivial) le_rfl (fun _ _ => trivial) fun _ _ _ h => h

theorem uses_devIo (w : Bool) (major addr : Nat) (n : Int) :
    Uses R 0 e (devIo w major addr n) fun _ => 0 :=
  uses_same (.devIo w major addr n) (Owning.allow trivial) le_rfl (fun _ _ => trivial) fun _ _ _ h => h

theorem uses_copyin (src n : Nat) : Uses R 0 e (op (.copyin src n)) fun _ => 0 :=
  uses_same (.copyin src n) (Owning.allow trivial) le_rfl (fun _ _ => trivial) fun _ _ _ h => h

theorem uses_copyout (dst : Nat) (bs : List UInt8) : Uses R 0 e (copyout dst bs) fun _ => 0 :=
  uses_same (.copyout dst bs) (Owning.allow trivial) le_rfl (fun _ _ => trivial) fun _ _ _ h => h

theorem uses_memory (m : Memory) : Uses R 0 e (memory m) fun _ => 0 :=
  uses_same (.memory m) (Owning.allow trivial) le_rfl (fun _ _ => trivial) fun _ _ _ h => h

end Ops

end ZeptOS.Fs
