import ZeptOS.Fs.Counted

/-!
# Every interleaving of the calls

Whatever the rules allow keeps the books (`Inv.step`), and every call keeps to the rules (`Call.obeys`),
so the books balance in every state that any processes reach with any calls. Read back, they say what
the tables hold whenever all processes are between calls, and what a process holds at any point.

Whether all of them can end up waiting for one another is not covered: the order in which the calls
lock inodes does not show in the books.
-/

namespace ZeptOS.Fs

open Lib Lib.Code Function Multiset

variable {s s' : State} {G : Proc → Ledger} {p : Proc} {g : Ledger}

/-! ## One operation -/

theorem ok_inj {α : Type} {a r : α} (h : (.ok (a, s) : Except Stop (α × State)) = .ok (r, s')) :
    r = a ∧ s' = s := by
  simp only [Except.ok.injEq, Prod.mk.injEq] at h
  exact ⟨h.1.symm, h.2.symm⟩

variable {ω : Oracle}

section Step

variable (h : Inv s G) (hoff : ¬(G p).Off)
include h hoff

theorem Inv.unchanged : Next s G p (· = G p) :=
  h.untouched hoff ⟨rfl, rfl, rfl, rfl, rfl⟩ rfl rfl rfl rfl

theorem Inv.addRef (ip : Slot) : Next (s.addRef ip 1) G p (Moves 0 {.iref ip} (G p)) := by
  refine h.getRef hoff ?_ (fun i hi => ?_) ⟨rfl, rfl, rfl, rfl, rfl⟩ rfl rfl rfl
  · simp [State.addRef, State.setIdent]
  · simp [State.addRef, State.setIdent, hi]

theorem Inv.iget {dev inum : Nat} {ip : Slot} (he : perform ω p s (.iget dev inum) = .ok (ip, s')) :
    Next s' G p (Moves 0 {.iref ip} (G p)) := by
  simp only [perform] at he
  split at he
  · obtain ⟨rfl, rfl⟩ := ok_inj he
    exact h.addRef hoff _
  · next hempty =>
    obtain ⟨rfl, rfl⟩ := ok_inj he
    have h0 : (s.ident ip).ref = 0 := by simpa using List.find?_some hempty
    refine h.getRef hoff ?_ (fun j hj => ?_) ⟨rfl, rfl, rfl, rfl, rfl⟩ rfl rfl rfl
    · simp [State.recycle, State.setIdent, State.setNode, h0]
    · simp [State.recycle, State.setIdent, State.setNode, hj]
  · cases he

theorem Inv.iputTest {ip : Slot} {r : Bool} (hn : {.tx} + {.iref ip} ≤ (G p).1)
    (he : perform ω p s (.iputTest ip) = .ok (r, s')) :
    Next s' G p ((G p).step (.iputTest ip) r) := by
  simp only [perform] at he
  split at he
  · split at he
    · next hl =>
      obtain ⟨rfl, rfl⟩ := ok_inj he
      exact h.acquire hoff hl
    · exact nomatch he
  · obtain ⟨rfl, rfl⟩ := ok_inj he
    obtain ⟨T, hT⟩ := exists_add_of_le ((le_add_left _ _).trans hn)
    exact h.putRef hoff hT

theorem Inv.filecloseRef {f : FileNo} {r : Option File} (hn : {.fref f} ≤ (G p).1)
    (he : perform ω p s (.filecloseRef f) = .ok (r, s')) :
    Next s' G p ((G p).step (.filecloseRef f) r) := by
  obtain ⟨T, hT⟩ := exists_add_of_le hn
  simp only [perform] at he
  split at he
  · exact nomatch he
  · next hpos =>
    by_cases hb : .blank f ∈ (G p).1
    · -- nobody else can have a reference to it
      obtain ⟨hr, htype⟩ := h.blanks.blank p f hb
      rw [if_neg (by omega)] at he
      obtain ⟨rfl, rfl⟩ := ok_inj he
      refine (h.fileblank hoff hb).mono fun g hg => ?_
      simp only [Ledger.step, if_pos hb]
      exact ⟨⟨_, rfl, htype⟩, hg⟩
    · split at he
      · obtain ⟨rfl, rfl⟩ := ok_inj he
        refine (h.fileput hoff hT hb (by omega)).mono fun g hg => ?_
        simpa only [Ledger.step, if_neg hb] using hg
      · obtain ⟨rfl, rfl⟩ := ok_inj he
        refine (h.filelast hoff hT hb (by omega)).mono fun g hg => ?_
        simp only [Ledger.step, if_neg hb]
        exact hg

/-- **What the rules allow keeps the books.** -/
theorem Inv.step {tight : Bool} {o : Op} {r : o.Ans}
    (ha : (own tight).allow (G p) o) (he : perform ω p s o = .ok (r, s')) :
    Next s' G p ((G p).step o r) := by
  obtain ⟨hn, hg⟩ := ha
  obtain ⟨T, hT⟩ := exists_add_of_le hn
  cases o
  case iget dev inum => exact h.iget hoff he
  case iputTest ip => exact h.iputTest hoff hn he
  case filecloseRef f => exact h.filecloseRef hoff hn he
  all_goals
    simp only [perform] at he
    (repeat' split at he) <;> first
      | (obtain ⟨rfl, rfl⟩ := ok_inj he)
      | cases he
  case childOfile fd f =>
    obtain ⟨-, k, hk, rfl⟩ := hg
    exact h.childOfile hoff hk fd f
  case childCwd ip =>
    obtain ⟨k, hk, rfl⟩ := hg
    exact h.childCwd hoff hk ip
  case runnable =>
    obtain ⟨k, hk, rfl, hcwd, hle, hquiet⟩ := hg
    obtain ⟨X, hX⟩ := exists_add_of_le hle
    exact h.runnable hoff hk hcwd hquiet hX
  all_goals first
    -- what only looks, or fails
    | exact h.unchanged hoff
    | exact (h.unchanged hoff).mono fun g hg => ⟨by rw [h.procs.ofile], hg⟩
    | exact (h.unchanged hoff).mono fun g hg => ⟨(h.procs.cwd p).trans ‹_›, hg⟩
    | exact h.untouched hoff ⟨rfl, rfl, rfl, rfl, rfl⟩ rfl rfl rfl rfl
    | exact h.bread hoff ‹_›
    | exact h.brelse hoff hT ‹_›
    | exact h.beginOp hoff
    | exact h.endOp hoff hT
    | exact h.addRef hoff _
    | exact h.putRef hoff hT
    | exact h.acquire hoff ‹_›
    | exact h.releasesleep hoff hT
    | exact h.filealloc hoff (by simpa using List.find?_some ‹s.freeFile = some _›)
    | exact h.filedup hoff (singleton_le.mp hn) hg
    | exact h.fill hoff hg hT
    | exact h.setOff hoff _
    | exact h.pipeKalloc hoff ‹_›
    | exact h.pipeclose hoff hT
    | exact h.setOfile hoff _ _
    | exact h.setCwd hoff _
    | exact h.allocproc hoff hg ‹_›
    | exact h.zombie hoff

omit hoff in
theorem Inv.reap (hz : s.pstate p = .zombie) (hr : (G p).Rest) : ∃ G' : Proc → Ledger,
    Inv (s.setPstate p .unused) G' ∧ (G' p).Rest ∧ ∀ u, u ≠ p → G' u = G u := by
  have hv : Vacant (G p).1 (G p).2 := by
    simpa only [Ledger.Rest, h.procs.pstate p, hz] using hr
  have hv' : Vacant (G p).1 { (G p).2 with pstate := .unused } := ⟨hv.owed, hv.kid, hv.cwd, hv.ofile⟩
  refine ⟨update G p ((G p).1, { (G p).2 with pstate := .unused }), ?_, ?_,
    fun u hu => update_of_ne hu _ _⟩
  · refine h.of_tokens (fst_update G p _) rfl rfl rfl rfl rfl rfl
      (h.procs.own ?_ (h.procs.ofile p).symm (h.procs.cwd p).symm rfl ?_ (fun _ => hv') (by simp)
        fun q hq => ⟨by simp [State.setPstate, hq], rfl, rfl⟩)
    · simp [State.setPstate]
    · rintro q k hk rfl
      cases hz.symm.trans (h.procs.kid q k hk).1
  · rw [update_self]
    exact hv'

end Step

/-! ## All interleavings -/

def contract (sb : Superblock) : Contract (system sb) Ledger where
  rules := Call.rules
  rest := Ledger.Rest
  off := Ledger.Off
  inv := Inv
  start {s G p i} h hr hl := by
    have hlive : (G p).2.pstate = .live := (h.procs.pstate p).trans hl
    exact ⟨by simp [Ledger.Off, hlive], i.obeys sb hr hlive⟩
  step {s G p i o r s'} h hoff ha he := by
    obtain ⟨ω, he⟩ := he
    cases i with
    | read => exact h.step hoff ha he
    | _ => exact h.step hoff ha he
  idle {s G p s'} h hr hs := by
    obtain ⟨hz, rfl⟩ := hs
    exact h.reap hz hr

/-- After `userinit`: only the first process is there, and only its current directory is in use. -/
def boot (disk : Nat → Block) : State where
  disk
  buf _ := none
  begun _ := 0
  ident ip := if ip = 0 then ⟨ROOTDEV, ROOTINO, 1⟩ else ⟨0, 0, 0⟩
  node _ := ⟨false, .zero⟩
  lock _ := none
  file _ := ⟨.none, 0, false, false, 0, 0, 0, 0⟩
  pipe _ := ⟨false, false, 0, 0⟩
  pstate p := if p = 0 then .live else .unused
  ofile _ _ := none
  cwd p := if p = 0 then some 0 else none

def bootLedger (p : Proc) : Ledger :=
  if p = 0 then ({.iref 0}, ⟨.live, fun _ => none, some 0, none⟩)
  else (0, ⟨.unused, fun _ => none, none, none⟩)

theorem bootLedger_of_ne (h : p ≠ 0) :
    bootLedger p = (0, ⟨.unused, fun _ => none, none, none⟩) := if_neg h

theorem total_bootLedger (r : Token) : total bootLedger r = if r = .iref 0 then 1 else 0 := by
  have h0 (p : Proc) (_ : p ∈ Finset.univ) (hp : p ≠ 0) : (bootLedger p).1.count r = 0 := by
    rw [bootLedger_of_ne hp, count_zero]
  rw [total, Finset.sum_eq_single 0 h0 fun h => absurd (Finset.mem_univ _) h]
  exact count_singleton r (.iref 0)

theorem slots_boot (disk : Nat → Block) (r : Token) : slots (boot disk) r = 0 :=
  Finset.sum_eq_zero fun _ _ => count_zero r

theorem bootLedger_rest (p : Proc) : (bootLedger p).Rest := by
  by_cases hp : p = 0
  · subst hp
    refine ⟨rfl, rfl, nofun, ?_⟩
    simp [bootLedger, Private.owed, fileRefs, fileRef, inodeRef]
  · rw [bootLedger_of_ne hp]
    exact ⟨rfl, rfl, rfl, fun _ _ => rfl⟩

theorem count_bootLedger {r : Token} (hr : r ≠ .iref 0) (p : Proc) : (bootLedger p).1.count r = 0 := by
  by_cases hp : p = 0
  · subst hp
    exact (count_singleton r (.iref 0)).trans (if_neg hr)
  · rw [bootLedger_of_ne hp, count_zero]

theorem boot_inv (disk : Nat → Block) : Inv (boot disk) bootLedger := by
  refine ⟨⟨fun ip => ?_, fun f => ?_, fun pi w => ?_, fun p => ?_, fun p ip => ?_, fun p b => ?_⟩,
    ⟨fun _ _ => rfl, fun p f => ?_, fun p f hm => ?_⟩,
    ⟨fun p => ?_, fun p => ?_, fun p => ?_, fun p k hk => ?_, fun p q k l hk => ?_, fun p hp => ?_,
      fun p hp => ?_, fun p hp => ?_⟩, fun _ => rfl, fun _ => nofun⟩
  · rw [total_bootLedger, slots_boot]
    by_cases hip : ip = 0 <;> simp [boot, hip]
  · simp [total_bootLedger, boot]
  · rw [total_bootLedger, slots_boot]
    cases w <;> rfl
  · rw [count_bootLedger (by simp)]
    rfl
  · rw [count_bootLedger (by simp)]
    rfl
  · rw [count_bootLedger (by simp)]
    rfl
  · rw [count_bootLedger (by simp)]
    exact Nat.zero_le _
  · have hpos := count_pos.mpr hm
    rw [count_bootLedger (by simp)] at hpos
    exact absurd hpos (lt_irrefl 0)
  · by_cases hp : p = 0 <;> simp [bootLedger, boot, hp]
  · by_cases hp : p = 0 <;> simp [bootLedger, boot, hp]
  · by_cases hp : p = 0 <;> simp [bootLedger, boot, hp]
  · by_cases hp : p = 0 <;> simp [bootLedger, hp] at hk
  · by_cases hp : p = 0 <;> simp [bootLedger, hp] at hk
  · have hp0 : p ≠ 0 := by
      rintro rfl
      exact nomatch hp
    rw [bootLedger_of_ne hp0]
    exact ⟨rfl, rfl, rfl, fun _ _ => rfl⟩
  · by_cases hp0 : p = 0 <;> simp [boot, hp0] at hp
  · by_cases hp0 : p = 0 <;> simp [boot, hp0] at hp

variable {sb : Superblock} {disk : Nat → Block} {c : Machine.Config sig Proc State Call Int}

/-- **The books balance in every interleaving.** -/
theorem books (h : (system sb).Reach (boot disk) c) : ∃ G, (contract sb).Ok c G :=
  Contract.of_reach (boot_inv disk) bootLedger_rest h

/-! ## One process alone -/

/-- Code of a process, while the others stand still and with the same answers from outside. -/
def alone {α : Type} (ω : Oracle) (p : Proc) (x : FsM α) : Prog State Stop α :=
  run (fun o s => perform ω p s o) x

variable {i : Call}

theorem reach_call {a : Int} (h : (system sb).Reach (boot disk) ⟨s, fun _ => none⟩)
    (hl : s.pstate p = .live) (hi : alone ω p (i.code sb) s = .ok (a, s')) :
    (system sb).Reach (boot disk) ⟨s', fun _ => none⟩ :=
  Machine.Reach.call (M := system sb) (fun _ _ _ _ he => ⟨ω, he⟩) h rfl hl hi

/-- Calls of processes, one after the other, with the answers from outside. -/
def play (sb : Superblock) : List (Oracle × Proc × Call) → State → Except Stop State
  | [], s => .ok s
  | (ω, p, i) :: calls, s =>
    if s.pstate p = .live then
      match alone ω p (i.code sb) s with
      | .ok (_, s') => play sb calls s'
      | .error e => .error e
    else .error .fault

variable {calls : List (Oracle × Proc × Call)}

theorem reach_play (h : (system sb).Reach (boot disk) ⟨s, fun _ => none⟩)
    (hp : play sb calls s = .ok s') : (system sb).Reach (boot disk) ⟨s', fun _ => none⟩ := by
  induction calls generalizing s with
  | nil =>
    obtain rfl := Except.ok.inj hp
    exact h
  | cons x calls ih =>
    obtain ⟨ω, p, i⟩ := x
    unfold play at hp
    split at hp
    · next hl =>
      split at hp
      · next a s₁ hi => exact ih (reach_call h hl hi) hp
      · cases hp
    · cases hp

/-- The operations of a process, up to the first at which `halt` says so. -/
def upTo (halt : State → Op → Bool) (ω : Oracle) (p : Proc) (o : Op) :
    Prog State (Option Stop) o.Ans := fun s =>
  if halt s o then .error none
  else
    match perform ω p s o with
    | .ok x => .ok x
    | .error e => .error (some e)

variable {halt : State → Op → Bool}

theorem reach_upTo (h : (system sb).Reach (boot disk) ⟨s, fun _ => none⟩) (hl : s.pstate p = .live)
    (hi : run (upTo halt ω p) (i.code sb) s = .error none) : ∃ o k s', (system sb).Reach (boot disk)
        ⟨s', update (fun _ => none) p (some (i, .op o k))⟩ ∧ halt s' o = true := by
  have hM (o : Op) (s : State) (r : o.Ans) (s' : State)
      (ho : upTo halt ω p o s = .ok (r, s')) : (system sb).exec p s o r s' := by
    unfold upTo at ho
    split at ho
    · exact nomatch ho
    · split at ho
      · next he =>
        obtain rfl := Except.ok.inj ho
        exact ⟨ω, he⟩
      · exact nomatch ho
  have h₁ := Relation.ReflTransGen.tail h (Machine.Step.call (M := system sb) (t := p) (i := i)
    rfl hl)
  obtain ⟨o, k, s', hr, he⟩ := Machine.Reach.stop hM h₁ (update_self ..) hi
  rw [update_idem] at hr
  refine ⟨o, k, s', hr, ?_⟩
  unfold upTo at he
  split at he
  · next hh => exact hh
  · split at he
    · exact nomatch he
    · exact nomatch he

/-- Whether after some calls a call of a process gets to such an operation. -/
def gets (sb : Superblock) (calls : List (Oracle × Proc × Call)) (halt : State → Op → Bool)
    (ω : Oracle) (p : Proc) (i : Call) (s : State) : Bool :=
  match play sb calls s with
  | .ok s' => decide (s'.pstate p = .live) &&
    match run (upTo halt ω p) (i.code sb) s' with
    | .error none => true
    | _ => false
  | .error _ => false

theorem reach_gets (h : gets sb calls halt ω p i (boot disk) = true) :
    ∃ o k s', (system sb).Reach (boot disk)
        ⟨s', update (fun _ => none) p (some (i, .op o k))⟩ ∧ halt s' o = true := by
  unfold gets at h
  split at h
  · next s' hp =>
    rw [Bool.and_eq_true, decide_eq_true_eq] at h
    obtain ⟨hl, h⟩ := h
    split at h
    · next hi => exact reach_upTo (reach_play .refl hp) hl hi
    · cases h
  · cases h

/-! ## A file system to call

Sixty directories, the first of which is the root, each with an `a` in it that is the next one.
-/

/-- The answers for calls to which nothing outside is in the way. -/
def plenty : Oracle where
  copyin := ⟨fun _ => 0, some 0⟩
  copyout := true
  memory := true
  io := 0
  page := some 0
  proc := none

def chainSb : Superblock := ⟨2000, 1916, 200, 30, 2, 32, 83⟩

/-- The byte at `o` of the inode of the `i`-th directory: a type, `nlink`, `size` and one address. -/
def chainInode (i o : Nat) : UInt8 :=
  match o with
  | 0 => 1
  | 6 => if i = 60 then 1 else 2
  | 8 => if i = 60 then 32 else 48
  | 12 => UInt8.ofNat (83 + i)
  | _ => 0

/-- The byte at `o` of its content: `.`, `..`, and `a` unless it is the last. -/
def chainEntry (i o : Nat) : UInt8 :=
  match o with
  | 0 => UInt8.ofNat i
  | 2 => 0x2e
  | 16 => UInt8.ofNat (max 1 (i - 1))
  | 18 | 19 => 0x2e
  | 32 => if i = 60 then 0 else UInt8.ofNat (i + 1)
  | 34 => if i = 60 then 0 else 0x61
  | _ => 0

def chainDisk (b : Nat) : Block := fun o =>
  if b < 32 then 0
  else if b < 83 then
    let i := 4 * (b - 32) + o / 256
    if i = 0 ∨ 60 < i then 0 else chainInode i (o % 256)
  else if b = 83 then if o < 18 then 255 else 0
  else if b < 144 then chainEntry (b - 83) o
  else 0

def chdirA : Call := .chdir (some [0x61])

/-! ## Transactions and locks -/

structure Unlocked (s : State) (p : Proc) : Prop where
  inode : ∀ ip, s.lock ip ≠ some p
  buffer : ∀ b, s.buf b ≠ some p

/-- What a process in a call, or between calls, has begun and holds. -/
structure Balanced (c : Machine.Config sig Proc State Call Int) (p : Proc) : Prop where
  /-- at the return of a call, and until the next one -/
  rest : (c.thread p = none ∨ ∃ i a, c.thread p = some (i, .ret a)) →
    c.state.begun p = 0 ∧ Unlocked c.state p
  /-- before `begin_op` -/
  beginOp : ∀ {i k}, c.thread p = some (i, .op .beginOp k) →
    c.state.begun p = 0 ∧ Unlocked c.state p
  /-- before `end_op` -/
  endOp : ∀ {i k}, c.thread p = some (i, .op .endOp k) → 1 ≤ c.state.begun p
  /-- on entry to `itrunc` and `writei` -/
  enter : ∀ {i f k}, c.thread p = some (i, .op (.enter f) k) → 1 ≤ c.state.begun p
  iput : ∀ {i ip k}, c.thread p = some (i, .op (.iputTest ip) k) → 1 ≤ c.state.begun p
  logWrite : ∀ {i b k}, c.thread p = some (i, .op (.logWrite b) k) →
    (∀ fd addr n, i ≠ .read fd addr n) → 1 ≤ c.state.begun p

theorem Inv.unlocked (h : Inv s G) (hq : ∀ r ∈ (G p).1, r.Quiet) : s.begun p = 0 ∧ Unlocked s p := by
  have h0 {r : Token} (hr : ¬r.Quiet) : (G p).1.count r = 0 :=
    count_eq_zero.mpr fun hm => hr (hq r hm)
  refine ⟨(h.books.tx p).trans (h0 (by exact id)), fun ip hl => ?_, fun b hb => ?_⟩
  · have hc := h.books.lock p ip
    rw [h0 (by exact id), holds, if_pos hl] at hc
    exact nomatch hc
  · have hc := h.books.buf p b
    rw [h0 (by exact id), holds, if_pos hb] at hc
    exact nomatch hc

theorem Ledger.Rest.quiet (h : g.Rest) : ∀ r ∈ g.1, r.Quiet := by
  unfold Ledger.Rest at h
  split at h
  · rw [h.owed]
    exact quiet_owed _
  · rw [h.1]
    simp
  · rw [h.owed]
    simp
  · rw [h.owed]
    simp

theorem Inv.begun_pos (h : Inv s G) (ht : .tx ∈ (G p).1) : 1 ≤ s.begun p := by
  rw [h.books.tx p]
  exact one_le_count_iff_mem.mpr ht

theorem Call.need_le {o : Op} (h : i.rules.allow g o) : need o ≤ g.1 := by
  cases i <;> exact h.1

theorem Call.guard_of_allow {o : Op} (h : i.rules.allow g o) :
    ∃ tight, guard tight g o ∧ ((∀ fd addr n, i ≠ .read fd addr n) → tight = true) := by
  cases i with
  | read fd addr n => exact ⟨false, h.2, fun hi => absurd rfl (hi fd addr n)⟩
  | _ => exact ⟨true, h.2, fun _ => rfl⟩

/-- **Transactions and locks are balanced**: in every interleaving of any calls, a call returns with
no lock held and its transaction ended, begins no transaction inside another or with a lock, and
changes the file system inside its transaction. -/
theorem transactions_balanced (h : (system sb).Reach (boot disk) c) (p : Proc) : Balanced c p := by
  obtain ⟨G, hG⟩ := books h
  have htx {i : Call} {o : Op} {k : o.Ans → FsM Int} (ho : c.thread p = some (i, .op o k))
      (hn : .tx ∈ need o) : 1 ≤ c.state.begun p :=
    hG.inv.begun_pos (mem_of_le (Call.need_le (hG.allow ho)) hn)
  refine ⟨fun hr => ?_, fun ho => ?_, fun ho => ?_, fun ho => ?_, fun ho => ?_, fun ho hi => ?_⟩
  · refine hG.inv.unlocked (Ledger.Rest.quiet ?_)
    rcases hr with hr | ⟨i, a, hr⟩
    · exact hG.rest hr
    · have hk := hG.keeps p
      rw [hr] at hk
      exact hk.2
  · obtain ⟨tight, hq, -⟩ := Call.guard_of_allow (hG.allow ho)
    exact hG.inv.unlocked hq
  · exact htx ho (mem_singleton_self _)
  · exact htx ho (mem_singleton_self _)
  · exact htx ho (subset_add_left (mem_singleton_self _))
  · obtain ⟨tight, hq, ht⟩ := Call.guard_of_allow (hG.allow ho)
    exact hG.inv.begun_pos (hq (ht hi))

def mkdirB : Call := .mkdir (some [0x62])

def atWritei (_ : State) : Op → Bool
  | .enter .writei => true
  | _ => false

/-- `mkdir` of the first process, in front of its first `writei` and after its return. -/
theorem transactions_balanced_mkdir : (∃ c k, (system chainSb).Reach (boot chainDisk) c ∧
      c.thread 0 = some (mkdirB, .op (.enter .writei) k) ∧ 1 ≤ c.state.begun 0) ∧
    ∃ s', (system chainSb).Reach (boot chainDisk) ⟨s', fun _ => none⟩ ∧
      alone plenty 0 (mkdirB.code chainSb) (boot chainDisk) = .ok (0, s') ∧
      s'.begun 0 = 0 ∧ Unlocked s' 0 := by
  constructor
  · have hg : gets chainSb [] atWritei plenty 0 mkdirB (boot chainDisk) = true := by decide +kernel
    obtain ⟨o, k, s', hr, ho⟩ := reach_gets hg
    obtain rfl : o = .enter .writei := by
      unfold atWritei at ho
      split at ho
      · rfl
      · cases ho
    have ht := update_self (β := fun _ => Option (Call × FsM Int)) (0 : Proc)
      (some (mkdirB, .op (.enter .writei) k)) fun _ => none
    exact ⟨_, k, hr, ht, (transactions_balanced hr 0).enter ht⟩
  · have h : (alone plenty 0 (mkdirB.code chainSb) (boot chainDisk)).map Prod.fst = .ok 0 := by
      decide +kernel
    obtain ⟨a, s', hs, rfl⟩ := Prog.ok_of_map h
    have hr := reach_call .refl rfl hs
    exact ⟨s', hr, hs, (transactions_balanced hr 0).rest (.inl rfl)⟩

/-! ## Reference counts -/

/-- What the tables count, when every process is between calls. -/
structure Counted (s : State) : Prop where
  file : ∀ f, (s.file f).ref =
    ({x : Proc × Fin NOFILE | s.ofile x.1 x.2 = some f} : Finset (Proc × Fin NOFILE)).card
  free : ∀ f, (s.file f).ref = 0 → (s.file f).type = .none
  inode : ∀ ip, (s.ident ip).ref = ({p : Proc | s.cwd p = some ip} : Finset Proc).card +
    ({f : FileNo | 0 < (s.file f).ref ∧ ((s.file f).type = .inode ∨ (s.file f).type = .device) ∧
      (s.file f).ip = ip} : Finset FileNo).card
  readopen : ∀ pi, (s.pipe pi).readopen = true ↔
    ∃ f, 0 < (s.file f).ref ∧ (s.file f).type = .pipe ∧ (s.file f).pipe = pi ∧ (s.file f).readable
  writeopen : ∀ pi, (s.pipe pi).writeopen = true ↔
    ∃ f, 0 < (s.file f).ref ∧ (s.file f).type = .pipe ∧ (s.file f).pipe = pi ∧ (s.file f).writable
  /-- the page of a pipe is freed once, with its second end -/
  page : ∀ pi, (s.pipe pi).kallocs =
    (s.pipe pi).kfrees + if (s.pipe pi).readopen ∨ (s.pipe pi).writeopen then 1 else 0

section Tokens

variable (o : Option FileNo) (x : Option Slot) (f : FileNo) (ip : Slot) (pi : Nat) (w : Bool)

theorem count_fref_fileRef : (fileRef o).count (.fref f) = if o = some f then 1 else 0 := by
  cases o with
  | none => simp [fileRef]
  | some g => simp [fileRef, count_singleton, eq_comm]

@[simp] theorem count_fref_inodeRef : (inodeRef x).count (.fref f) = 0 := by
  cases x <;> simp [inodeRef]

@[simp] theorem count_iref_fileRef : (fileRef o).count (.iref ip) = 0 := by
  cases o <;> simp [fileRef]

theorem count_iref_inodeRef : (inodeRef x).count (.iref ip) = if x = some ip then 1 else 0 := by
  cases x with
  | none => simp [inodeRef]
  | some g => simp [inodeRef, count_singleton, eq_comm]

@[simp] theorem count_pend_fileRef : (fileRef o).count (.pend pi w) = 0 := by
  cases o <;> simp [fileRef]

@[simp] theorem count_pend_inodeRef : (inodeRef x).count (.pend pi w) = 0 := by
  cases x <;> simp [inodeRef]

theorem count_fileRefs (o : Nat → Option FileNo) (r : Token) :
    (fileRefs o).count r = ∑ fd : Fin NOFILE, (fileRef (o fd)).count r := by
  rw [fileRefs, Multiset.count_sum', Finset.sum_range]

theorem count_iref_owns (y : File) : y.owns.count (.iref ip) =
    if (y.type = .inode ∨ y.type = .device) ∧ y.ip = ip then 1 else 0 := by
  unfold File.owns
  split <;> next ht => simp [ht, count_singleton, eq_comm (a := ip)]

theorem count_pend_owns (y : File) : y.owns.count (.pend pi w) =
    if y.type = .pipe ∧ y.pipe = pi ∧ y.writable = w then 1 else 0 := by
  unfold File.owns
  split <;> next ht =>
    simp [ht, count_singleton, eq_comm (a := pi), eq_comm (a := w)]

end Tokens

section Counted

variable (h : Inv s G) (hr : ∀ p, (G p).Rest)
include h hr

theorem Inv.not_used (p : Proc) : s.pstate p ≠ .used := by
  intro hu
  obtain ⟨q, k, hk, -⟩ := h.procs.parent p hu
  have hq := hr q
  unfold Ledger.Rest at hq
  split at hq
  · exact nomatch hq.kid.symm.trans hk
  · exact nomatch hq.2.symm.trans hk
  · exact nomatch hq.kid.symm.trans hk
  · exact nomatch hq.kid.symm.trans hk

theorem Inv.owed (p : Proc) : (G p).1 = fileRefs (s.ofile p) + inodeRef (s.cwd p) := by
  have hnu := h.not_used hr p
  have hp := hr p
  rw [← h.procs.pstate] at hnu
  rw [← h.procs.ofile, ← h.procs.cwd]
  have hvacant (hv : Vacant (G p).1 (G p).2) :
      (G p).1 = fileRefs (G p).2.ofile + inodeRef (G p).2.cwd := by
    have hfiles : fileRefs (G p).2.ofile = 0 :=
      Finset.sum_eq_zero fun fd hfd => by rw [hv.ofile fd (Finset.mem_range.mp hfd), fileRef]
    rw [hv.owed, hfiles, hv.cwd, inodeRef, zero_add]
  unfold Ledger.Rest at hp
  split at hp
  · exact hp.owed
  · next hu => exact absurd hu hnu
  · exact hvacant hp
  · exact hvacant hp

theorem Inv.total_fref (f : FileNo) : total G (.fref f) =
    ({x : Proc × Fin NOFILE | s.ofile x.1 x.2 = some f} : Finset (Proc × Fin NOFILE)).card := by
  rw [Finset.card_filter, Fintype.sum_prod_type]
  refine Finset.sum_congr rfl fun p _ => ?_
  rw [h.owed hr p, count_add, count_fref_inodeRef, add_zero, count_fileRefs]
  exact Finset.sum_congr rfl fun fd _ => count_fref_fileRef _ _

theorem Inv.total_iref (ip : Slot) :
    total G (.iref ip) = ({p : Proc | s.cwd p = some ip} : Finset Proc).card := by
  rw [Finset.card_filter]
  refine Finset.sum_congr rfl fun p _ => ?_
  rw [h.owed hr p, count_add, count_iref_inodeRef, count_fileRefs]
  simp

theorem Inv.total_pend (pi : Nat) (w : Bool) : total G (.pend pi w) = 0 := by
  refine Finset.sum_eq_zero fun p _ => ?_
  rw [h.owed hr p, count_add, count_fileRefs]
  simp

omit hr in
theorem Inv.ref_nonneg (f : FileNo) : 0 ≤ (s.file f).ref := by
  rw [h.books.fref f]
  exact Int.natCast_nonneg _

omit hr in
theorem Inv.ref_pos {f : FileNo} (ht : (s.file f).type ≠ .none) : 0 < (s.file f).ref :=
  lt_of_le_of_ne (h.ref_nonneg f) fun h0 => ht (h.blanks.zero f h0.symm)

omit hr in
theorem Inv.slots_iref (ip : Slot) : slots s (.iref ip) =
    ({f : FileNo | 0 < (s.file f).ref ∧ ((s.file f).type = .inode ∨ (s.file f).type = .device) ∧
      (s.file f).ip = ip} : Finset FileNo).card := by
  rw [Finset.card_filter]
  refine Finset.sum_congr rfl fun f _ => ?_
  rw [count_iref_owns]
  refine if_congr ⟨fun hf => ⟨h.ref_pos ?_, hf⟩, And.right⟩ rfl rfl
  rcases hf.1 with ht | ht <;> simp [ht]

theorem Inv.isOpen_iff (pi : Nat) (w : Bool) : (s.pipe pi).isOpen w = true ↔
    ∃ f, (s.file f).type = .pipe ∧ (s.file f).pipe = pi ∧ (s.file f).writable = w := by
  have hb := h.books.pend pi w
  rw [h.total_pend hr, zero_add, opened] at hb
  have hslots : slots s (.pend pi w) = 0 ↔
      ¬∃ f, (s.file f).type = .pipe ∧ (s.file f).pipe = pi ∧ (s.file f).writable = w := by
    simp [slots, count_pend_owns]
  by_cases ho : (s.pipe pi).isOpen w = true
  · rw [if_pos ho] at hb
    simp only [ho, true_iff]
    by_contra hno
    rw [hslots.mpr hno] at hb
    cases hb
  · rw [if_neg ho] at hb
    exact iff_of_false ho (hslots.mp hb.symm)

theorem Inv.counted : Counted s where
  file f := by rw [h.books.fref, h.total_fref hr]
  free := h.blanks.zero
  inode ip := by
    rw [h.books.iref, h.total_iref hr, h.slots_iref]
  readopen pi := by
    refine (h.isOpen_iff hr pi false).trans ⟨?_, ?_⟩
    · rintro ⟨f, ht, hp, hw⟩
      exact ⟨f, h.ref_pos (by simp [ht]), ht, hp, by rw [h.ends f ht, hw]; rfl⟩
    · rintro ⟨f, -, ht, hp, hrd⟩
      refine ⟨f, ht, hp, ?_⟩
      simpa [hrd] using h.ends f ht
  writeopen pi := by
    refine (h.isOpen_iff hr pi true).trans ⟨?_, ?_⟩
    · rintro ⟨f, ht, hp, hw⟩
      exact ⟨f, h.ref_pos (by simp [ht]), ht, hp, hw⟩
    · rintro ⟨f, -, ht, hp, hw⟩
      exact ⟨f, ht, hp, hw⟩
  page := h.pages

end Counted

/-- **References are counted exactly**: whatever calls any processes have made, and however each of
them ended, the tables count what is there to be counted. -/
theorem references_counted (h : (system sb).Reach (boot disk) c) (hc : ∀ p, c.thread p = none) :
    Counted c.state := by
  obtain ⟨G, hG⟩ := books h
  exact hG.inv.counted fun p => hG.rest (hc p)

def noDisk (_ : Nat) : Block := fun _ => 0

def noSb : Superblock := ⟨0, 0, 0, 0, 0, 0, 0⟩

theorem pipe_answers : ∃ s', alone plenty 0 (Call.code noSb (.pipe 0)) (boot noDisk) = .ok (0, s') ∧
    s'.ofile 0 1 = some 1 := by
  have h : (alone plenty 0 (Call.code noSb (.pipe 0)) (boot noDisk)).map
      (fun x => (x.1, x.2.ofile 0 1)) = .ok (0, some 1) := by decide +kernel
  obtain ⟨a, s', hs, he⟩ := Prog.ok_of_map h
  obtain ⟨rfl, hf⟩ := Prod.mk.inj he
  exact ⟨s', hs, hf⟩

theorem references_counted_pipe : ∃ s',
    alone plenty 0 (Call.code noSb (.pipe 0)) (boot noDisk) = .ok (0, s') ∧
      s'.ofile 0 1 = some 1 ∧ Counted s' := by
  obtain ⟨s', hs, hf⟩ := pipe_answers
  exact ⟨s', hs, hf, references_counted (reach_call .refl rfl hs) fun _ => rfl⟩

end ZeptOS.Fs
