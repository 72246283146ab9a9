import ZeptOS.Fs.Files

/-!
# Writers that share an open file

Processes that have inherited an open file write at one `f->off`. `filewrite` reads and advances it with
the inode locked, but gives the lock back after each chunk, so the chunks of several calls come in any
order. Here calls of `filewrite` are interleaved operation by operation (`Step`): nobody moves while
somebody else has the lock of the inode, and that is all that keeps them apart. Each chunk then starts
where the one before it has ended, so none overwrites another (`writers_keep_apart`).

The argument has two parts. What a call does from `acquiresleep` to `releasesleep` comes in one piece
(`Section`), and is what `Synced.does_writei` says; everywhere else a call only counts its transactions
(`Phase`). So between two sections the file is what the chunks so far have made of it (`Between`).

Only such calls take part: what `read`, `stat` or a `close` would do in between is not modelled here. A
process is in one call at a time, and its memory stays as it is during the call.
-/

namespace ZeptOS.Fs

open Lib Lib.Code Function

variable {p : Proc} {j off fuel off' : Nat} {s s' : State} {α β ι : Type} {x : FsM Int} {r : Int}
  {o : Op} {ω : Oracle} {v : Vnode} {b : Bool}

/-- A call of `filewrite`: the process, its memory, and what it is to write. -/
structure Writer where
  proc : Proc
  mem : Bytes
  addr : Nat
  n : Nat

def reads (mem : Bytes) : Env :=
  ⟨fun _ => False, fun src n c => c.fault = none → ∀ k, k < n → c.bytes k = mem (src + k)⟩

/-! ## Sections -/

section Sections

variable {E : Env} {ip : Slot}

/-- From here on the code keeps the lock until it calls `releasesleep(ip)`, and then `K` holds of the
rest of it and of the state. -/
def Section (E : Env) (p : Proc) (ip : Slot) (K : FsM Int → State → Prop) : FsM Int → State → Prop
  | .ret _, _ => False
  | .op o k, s => ∀ ω r s', E.Admits ω o → perform ω p s o = .ok (r, s') →
    K (k r) s' ∨ s'.lock ip = some p ∧ Section E p ip K (k r) s'

def Op.Releases (ip : Slot) : Op → Prop
  | .releasesleep jp => jp = ip
  | _ => False

def KeepsLock (ip : Slot) : FsM α → Prop
  | .ret _ => True
  | .op o k => ¬o.Releases ip ∧ ∀ r, KeepsLock ip (k r)

theorem keepsLock_op (h : ¬o.Releases ip) : KeepsLock ip (op o) := ⟨h, fun _ => trivial⟩

theorem keepsLock_panic (e : Panic) : KeepsLock ip (panic e : FsM α) := ⟨id, fun r => r.elim⟩

theorem KeepsLock.bind {x : FsM α} {g : α → FsM β} (h : KeepsLock ip x) (hg : ∀ a, KeepsLock ip (g a)) :
    KeepsLock ip (x >>= g) := by
  induction x with
  | ret a => exact hg a
  | op o k ih => exact ⟨h.1, fun r => ih r (h.2 r)⟩

theorem KeepsLock.next {g : o.Ans → FsM β} (h : ¬o.Releases ip) (hg : ∀ r, KeepsLock ip (g r)) :
    KeepsLock ip (op o >>= g) := (keepsLock_op h).bind hg

theorem keepsLock_when {c : Prop} [Decidable c] {x : FsM Unit} (h : KeepsLock ip x) :
    KeepsLock ip (when c x) := by
  unfold when
  split
  · exact h
  · trivial

/-- Only `releasesleep` takes the lock away from who has it. -/
theorem lock_of_perform {r : o.Ans} (h : perform ω p s o = .ok (r, s')) (ho : ¬o.Releases ip)
    (hl : s.lock ip = some p) : s'.lock ip = some p := by
  cases o with
  | releasesleep jp =>
    obtain ⟨-, rfl⟩ := ok_inj h
    exact (update_of_ne (fun he => ho he.symm) _ _).trans hl
  | acquiresleep jp | iputTest jp =>
    simp only [perform] at h
    (repeat' split at h) <;> first
      | (obtain ⟨-, rfl⟩ := ok_inj h
         by_cases hj : ip = jp
         · subst hj
           first | exact update_self .. | exact hl
         · first | exact (update_of_ne hj _ _).trans hl | exact hl)
      | cases h
  | panic e => cases h
  | _ =>
    simp only [perform] at h
    (repeat' split at h) <;> first
      | (obtain ⟨-, rfl⟩ := ok_inj h; exact hl)
      | cases h

variable {K : FsM Int → State → Prop}

theorem section_bind {x : FsM α} {g : α → FsM Int} (hx : KeepsLock ip x) (hl : s.lock ip = some p)
    (h : Does E p x (fun a s' => s'.lock ip = some p → Section E p ip K (g a) s') s) :
    Section E p ip K (x >>= g) s := by
  induction x generalizing s with
  | ret a => exact h hl
  | op o k ih =>
    intro ω r s' ha he
    have hl' := lock_of_perform he hx.1 hl
    exact .inr ⟨hl', ih r (hx.2 r) hl' (h.2 r s' ⟨ω, ha, he⟩)⟩

theorem section_iunlock (hl : s.lock ip = some p) (hK : K x (s.setLock ip none)) :
    Section E p ip K (iunlock ip >>= fun _ => x) s := by
  intro ω r s' _ he
  obtain ⟨rfl, rfl⟩ := ok_inj he
  refine .inr ⟨hl, ?_⟩
  rw [decide_eq_true hl]
  intro ω r s' _ he
  obtain ⟨rfl, rfl⟩ := ok_inj he
  refine .inr ⟨hl, ?_⟩
  show Section E p ip K ((if (s'.ident ip).ref < 1 then panic .iunlock else releasesleep ip) >>= fun _ => x) s'
  split
  · intro ω r s' _ he
    cases he
  · intro ω r s' _ he
    obtain ⟨-, rfl⟩ := ok_inj he
    exact .inl hK

end Sections

/-! ### What `filewrite` calls with the lock -/

section Keeps

variable {ip jp : Slot} (sb : Superblock)

theorem keepsLock_bzero (b : Nat) : KeepsLock ip (bzero b) :=
  .next id fun _ => .next id fun _ => .next id fun _ => keepsLock_op id

theorem keepsLock_ballocFrom (fuel b : Nat) : KeepsLock ip (ballocFrom sb fuel b) := by
  induction fuel generalizing b with
  | zero => trivial
  | succ fuel ih =>
    unfold ballocFrom
    split
    · refine .next id fun data => ?_
      split
      · exact .next id fun _ => .next id fun _ => .next id fun _ => .bind (keepsLock_bzero _) fun _ => trivial
      · exact .next id fun _ => ih _
    · trivial

theorem keepsLock_modifyNode (g : Dinode → Dinode) : KeepsLock ip (modifyNode jp g) :=
  .next id fun _ => keepsLock_op id

theorem keepsLock_bmapIndirect (addr bn : Nat) : KeepsLock ip (bmapIndirect sb addr bn) := by
  refine .next id fun data => ?_
  dsimp only
  split
  · refine .bind (keepsLock_ballocFrom sb _ _) fun a => .bind (keepsLock_when ?_) fun _ => ?_
    · exact .next id fun _ => keepsLock_op id
    · exact .next id fun _ => trivial
  · exact .next id fun _ => trivial

theorem keepsLock_bmap (bn : Nat) : KeepsLock ip (bmap sb jp bn) := by
  unfold bmap
  split
  · refine .next id fun n => ?_
    dsimp only
    split
    · refine .bind (keepsLock_ballocFrom sb _ _) fun a => ?_
      split
      · trivial
      · exact .bind (keepsLock_modifyNode _) fun _ => trivial
    · trivial
  · split
    · refine .next id fun n => ?_
      dsimp only
      split
      · refine .bind (keepsLock_ballocFrom sb _ _) fun a => ?_
        split
        · trivial
        · exact .bind (keepsLock_modifyNode _) fun _ => keepsLock_bmapIndirect sb _ _
      · exact keepsLock_bmapIndirect sb _ _
    · exact keepsLock_panic _

theorem keepsLock_writeiFrom (src n fuel tot off : Nat) :
    KeepsLock ip (writeiFrom sb jp (.user src) n fuel tot off) := by
  induction fuel generalizing tot off with
  | zero => trivial
  | succ fuel ih =>
    unfold writeiFrom
    split
    · refine .bind (keepsLock_bmap sb _) fun a => ?_
      split
      · trivial
      · refine .next id fun data => .next id fun c => ?_
        split
        · exact .next id fun _ => .next id fun _ => trivial
        · exact .next id fun _ => .next id fun _ => .next id fun _ => ih _ _
    · trivial

theorem keepsLock_iupdate : KeepsLock ip (iupdate sb jp) :=
  .next id fun _ => .next id fun _ => .next id fun _ => .next id fun _ => .next id fun _ => keepsLock_op id

theorem keepsLock_writei (src off n : Nat) : KeepsLock ip (writei sb jp (.user src) off n) := by
  refine .next id fun _ => .next id fun x => ?_
  dsimp only
  split
  · trivial
  · split
    · trivial
    · exact .bind (keepsLock_writeiFrom sb _ _ _ _ _) fun _ => .next id fun _ =>
        .bind (keepsLock_when (keepsLock_modifyNode _)) fun _ => .bind (keepsLock_iupdate sb) fun _ => trivial

theorem keepsLock_ilockRead : KeepsLock ip (ilockRead sb jp) := by
  refine .next id fun n => ?_
  split
  · trivial
  · refine .next id fun _ => .next id fun _ => .next id fun _ => .next id fun _ => .next id fun _ => ?_
    split
    · exact keepsLock_panic _
    · trivial

end Keeps

/-! ## The parts of a call -/

section Parts

variable (sb : Superblock) (f : FileNo) (ip : Slot) (w : Writer)

def writeLocked (src n1 : Nat) : FsM Int := do
  ilockRead sb ip
  let off := (← file f).off
  let r ← writei sb ip (.user src) off n1
  when (r > 0) (setOff f ((off + r.toNat) % 2 ^ 32))
  pure r

def Writer.len (i : Nat) : Nat := min (w.n - i) maxWrite

def Writer.head (fuel i : Nat) : FsM Int := do
  let i ← filewriteFrom sb f ip w.addr w.n fuel i
  pure (if (i : Int) = w.n then w.n else -1)

/-- From where it has given the lock back, `writei` having returned `r`. -/
def Writer.unlocked (fuel i : Nat) (r : Int) : FsM Int := do
  endOp
  if r ≠ w.len i then pure (-1) else w.head sb f ip fuel (i + w.len i)

def Writer.locked (fuel i : Nat) : FsM Int := do
  let r ← writeLocked sb f ip (w.addr + i) (w.len i)
  iunlock ip
  w.unlocked sb f ip fuel i r

def Writer.ilock (fuel i : Nat) : FsM Int := do
  if (← ident ip).ref < 1 then panic .ilock
  else
    acquiresleep ip
    w.locked sb f ip fuel i

variable {w} {i : Nat}

theorem Writer.len_pos (h : i < w.n) : 0 < w.len i := Nat.lt_min.mpr ⟨by omega, by decide⟩

theorem Writer.add_len_le (h : i ≤ w.n) : i + w.len i ≤ w.n := by
  have := Nat.min_le_left (w.n - i) maxWrite
  unfold Writer.len
  omega

theorem panic_bind (e : Panic) (g : α → FsM β) : (panic e >>= g) = panic e :=
  congrArg (Code.op _) (funext fun r => r.elim)

/-- The loop of `filewrite`, round by round. -/
theorem Writer.head_succ (h : i < w.n) :
    w.head sb f ip (fuel + 1) i = beginOp >>= fun _ => w.ilock sb f ip fuel i := by
  have hlen : min (w.n - i) maxWrite = w.len i := rfl
  have hnext (r : Int) : ((if r ≠ w.len i then pure i else filewriteFrom sb f ip w.addr w.n fuel (i + w.len i)) >>=
      fun i => (pure (if (i : Int) = w.n then (w.n : Int) else -1) : FsM Int)) =
      if r ≠ w.len i then pure (-1) else w.head sb f ip fuel (i + w.len i) := by
    split
    · rw [pure_bind, if_neg (by omega)]
    · rfl
  unfold Writer.head filewriteFrom Writer.ilock Writer.locked Writer.unlocked writeLocked Fs.ilock
  simp only [if_pos h, bind_assoc, pure_bind, hlen, hnext]
  refine congrArg (beginOp >>= ·) (funext fun _ => congrArg (ident ip >>= ·) (funext fun d => ?_))
  split
  · rw [panic_bind]
  · rw [bind_assoc]

theorem Writer.filewrite_eq : ∃ g, filewrite sb f w.addr w.n = .op (S := sig) (.file f) g ∧
    ∀ y : File, y.type = .inode → y.writable = true → y.ip = ip → g y = w.head sb f ip w.n 0 := by
  refine ⟨_, rfl, fun y ht hw hi => ?_⟩
  subst hi
  show (if y.writable = false then _ else _) = _
  rw [if_neg (by rw [hw]; decide), ht]
  rfl

theorem Writer.head_end (h : w.n ≤ i) :
    w.head sb f ip fuel i = .ret (if (i : Int) = w.n then (w.n : Int) else -1) := by
  unfold Writer.head
  cases fuel with
  | zero => rfl
  | succ fuel =>
    unfold filewriteFrom
    rw [if_neg (by omega)]
    rfl

end Parts

/-! ## One chunk -/

section Chunk

/-- The inode at `ip` is not locked, and the file is `v`. -/
structure Shared (sb : Superblock) (ip : Slot) (j : Nat) (s : State) (v : Vnode) : Prop where
  synced : Synced sb s
  ref : 0 < (s.ident ip).ref
  lock : s.lock ip = none
  inum : s.inum ip = j
  file : volume sb s.disk j = some v

variable {sb : Superblock} {f : FileNo} {ip : Slot}

theorem Shared.begun (h : Shared sb ip j s v) (begun : Proc → Nat) : Shared sb ip j { s with begun } v := by
  obtain ⟨hg, hb, hwf, hu, hd, hl, hc⟩ := h.synced
  exact ⟨⟨hg, hb, hwf, hu, hd, hl, hc⟩, h.ref, h.lock, h.inum, h.file⟩

/-- The bytes `data` are in the file at `f->off`, which is after them, and the lock can be given back. -/
structure Appended (sb : Superblock) (f : FileNo) (ip : Slot) (j : Nat) (s : State) (v : Vnode) (n1 : Nat)
    (data : Bytes) (s' : State) : Prop where
  begun : s'.begun = s.begun
  file : s'.file f = { s.file f with off := (s.file f).off + n1 }
  shared : Shared sb ip j (s'.setLock ip none) (v.write (s.file f).off n1 data)

theorem Shared.does_writeLocked (h : Shared sb ip j s v) (hp : s.begun p ≠ 0) {mem : Bytes}
    {src n1 : Nat} (hn : 0 < n1) : Does (reads mem) p (writeLocked sb f ip src n1)
      (fun r s' => r = n1 → ∃ data, (∀ k, k < n1 → data k = mem (src + k)) ∧
        Appended sb f ip j s v n1 data s') (s.setLock ip (some p)) := by
  obtain ⟨hs, hr, hlock, rfl, hv⟩ := h
  obtain ⟨hlive, rfl⟩ := live_of_volume hv
  unfold writeLocked
  refine does_bind.2 (hs.does_ilockRead hr hlive ?_)
  rintro s₁ rfl hs₁ -
  refine does_bind.2 (does_answer (fun _ => rfl) ?_)
  refine (hs₁.does_writei ⟨p, hp⟩ hr (by simp) (.user src) _ n1).call fun r s₂ hw => ?_
  unfold WriteDone at hw
  split at hw
  · next hfit =>
    obtain ⟨tot, disk, d, data, stray, rfl, rfl, hw⟩ := hw
    refine does_bind.2 (does_when (fun _ => does_answer (fun _ => rfl) fun hr' => ?_) fun h0 hr' => ?_)
    · have ht : tot = n1 := by omega
      have hst : stray = 0 := by have := hw.most; omega
      subst ht hst
      obtain ⟨hg, hb, hwf, hu, hd, hl, hc⟩ := hw.synced
      have hlt : (s.file f).off + tot < 2 ^ 32 := Nat.lt_of_le_of_lt hfit.2 (by decide)
      refine ⟨data, fun k hk => ?_, rfl, ?_, ⟨hg, hb, hwf, hu, hd, hl, hc⟩, hr, update_self .., rfl, ?_⟩
      · obtain ⟨t, m, c, hc, hf, htk, hkm, he⟩ := hw.gives k hk
        rw [he, hc hf (k - t) (by omega)]
        congr 1
        omega
      · refine (update_self ..).trans ?_
        rw [Int.toNat_natCast]
        exact congrArg (fun off => { s.file f with off }) (Nat.mod_eq_of_lt hlt)
      · refine (congrFun hw.volume (s.inum ip)).trans ?_
        rw [smear_none]
        exact update_self ..
    · omega
  · obtain ⟨rfl, rfl⟩ := hw
    exact does_bind.2 (does_when (fun h0 => absurd h0 (by decide)) fun _ he => absurd he (by omega))

/-- What a section of `w` leaves, when it has begun in the state `s`. -/
def SectionDone (sb : Superblock) (f : FileNo) (ip : Slot) (j : Nat) (s : State) (v : Vnode) (w : Writer)
    (fuel i : Nat) (x : FsM Int) (s' : State) : Prop :=
  ∃ r, x = w.unlocked sb f ip fuel i r ∧ (r = w.len i → ∃ data s₁, s' = s₁.setLock ip none ∧
    (∀ k, k < w.len i → data k = w.mem (w.addr + i + k)) ∧ Appended sb f ip j s v (w.len i) data s₁)

theorem Shared.locked (h : Shared sb ip j s v) {w : Writer} (hp : s.begun w.proc ≠ 0) {i : Nat}
    (hi : i < w.n) : Section (reads w.mem) w.proc ip (SectionDone sb f ip j s v w fuel i)
      (w.locked sb f ip fuel i) (s.setLock ip (some w.proc)) := by
  have hk : KeepsLock ip (writeLocked sb f ip (w.addr + i) (w.len i)) :=
    .bind (keepsLock_ilockRead sb) fun _ => .next id fun _ =>
      .bind (keepsLock_writei sb _ _ _) fun _ => .bind (keepsLock_when (keepsLock_op id)) fun _ => trivial
  refine section_bind hk (update_self ..) ((h.does_writeLocked hp (w.len_pos hi)).mono ?_)
  intro r s' hr hl
  refine section_iunlock hl ⟨r, rfl, fun he => ?_⟩
  obtain ⟨data, hdata, ha⟩ := hr he
  exact ⟨data, s', rfl, hdata, ha⟩

end Chunk

/-! ## Interleavings -/

/-- The state, and what is left of every call; `none` of one that has not begun. -/
abbrev Running (ι : Type) := State × (ι → Option (FsM Int))

def idle : Option (FsM Int) → Bool
  | none | some (.ret _) => true
  | some (.op _ _) => false

section

variable [DecidableEq ι]

/-- **Interleavings of calls of `filewrite`**: a process begins a call when it is in no other, and a call
goes on by an operation when nobody else has the lock. -/
inductive Step (sb : Superblock) (f : FileNo) (ip : Slot) (w : ι → Writer) : Running ι → Running ι → Prop
  | call {s : State} {k : ι → Option (FsM Int)} {c : ι} (h : k c = none)
      (hp : ∀ d, (w d).proc = (w c).proc → idle (k d) = true) :
      Step sb f ip w (s, k) (s, update k c (some (filewrite sb f (w c).addr (w c).n)))
  | op {s s' : State} {k : ι → Option (FsM Int)} {c : ι} {o : Op} {x : o.Ans → FsM Int} {r : o.Ans}
      {ω : Oracle} (h : k c = some (.op o x)) (hl : s.lock ip = none ∨ s.lock ip = some (w c).proc)
      (hω : (reads (w c).mem).Admits ω o) (ho : perform ω (w c).proc s o = .ok (r, s')) :
      Step sb f ip w (s, k) (s', update k c (some (x r)))

/-- Where the chunk was in the data of its call, and where it went in the file. -/
structure Chunk (ι : Type) where
  who : ι
  i : Nat
  off : Nat
  len : Nat

/-- Each chunk starts where the last one has ended, in the file and in the data of its call. -/
def InOrder : Nat → (ι → Nat) → List (Chunk ι) → Nat → (ι → Nat) → Prop
  | off, i, [], off', i' => off' = off ∧ i' = i
  | off, i, x :: l, off', i' => x.off = off ∧ x.i = i x.who ∧ x.len ≤ maxWrite ∧
    InOrder (off + x.len) (i + Pi.single x.who x.len) l off' i'

theorem InOrder.sum [Fintype ι] {l : List (Chunk ι)} {i i' : ι → Nat} (h : InOrder off i l off' i') :
    off' + ∑ c, i c = off + ∑ c, i' c := by
  induction l generalizing off i with
  | nil => rw [h.1, h.2]
  | cons x l ih =>
    have hl := ih h.2.2.2
    simp only [Pi.add_apply, Finset.sum_add_distrib, Finset.sum_pi_single', Finset.mem_univ, if_true] at hl
    omega

theorem InOrder.snoc {l : List (Chunk ι)} {i i' : ι → Nat} (h : InOrder off i l off' i')
    {x : Chunk ι} (hx : x.off = off') (hi : x.i = i' x.who) (hlen : x.len ≤ maxWrite) :
    InOrder off i (l ++ [x]) (off' + x.len) (i' + Pi.single x.who x.len) := by
  induction l generalizing off i with
  | nil =>
    obtain ⟨rfl, rfl⟩ := h
    exact ⟨hx, hi, hlen, rfl, rfl⟩
  | cons y l ih => exact ⟨h.1, h.2.1, h.2.2.1, ih h.2.2.2⟩

/-! ## The invariant -/

/-- **Where a call is while nobody has the lock**: whether it has begun a transaction, how much it has
written, and what is left of it. -/
inductive Phase (sb : Superblock) (f : FileNo) (ip : Slot) (w : Writer) : Bool → Nat → Option (FsM Int) → Prop
  | before : Phase sb f ip w false 0 none
  | start : Phase sb f ip w false 0 (some (filewrite sb f w.addr w.n))
  | head {fuel i : Nat} (hf : w.n ≤ fuel + i) (hi : i ≤ w.n) :
      Phase sb f ip w false i (some (w.head sb f ip fuel i))
  | ilock {fuel i : Nat} (hf : w.n ≤ fuel + 1 + i) (hi : i < w.n) :
      Phase sb f ip w true i (some (w.ilock sb f ip fuel i))
  | acquire {fuel i : Nat} (hf : w.n ≤ fuel + 1 + i) (hi : i < w.n) :
      Phase sb f ip w true i (some (acquiresleep ip >>= fun _ => w.locked sb f ip fuel i))
  | unlocked {fuel i : Nat} (hf : w.n ≤ fuel + 1 + i) (hi : i < w.n) :
      Phase sb f ip w true (i + w.len i) (some (w.unlocked sb f ip fuel i (w.len i)))

variable {sb : Superblock} {f : FileNo} {ip : Slot} {s₀ : State} {w : ι → Writer}
  {k : ι → Option (FsM Int)} {i : ι → Nat} {l : List (Chunk ι)} {c : ι}

theorem Phase.begun_of_idle {w : Writer} {i : Nat} {x : Option (FsM Int)}
    (h : Phase sb f ip w b i x) (hx : idle x = true) : b = false := by
  cases h with
  | before | start | head => rfl
  | ilock | acquire | unlocked => cases hx

/-- **Between two sections**: the file is what the chunks `l` have made of it since `s₀`, and of each call
`i` bytes are written. -/
structure Between (sb : Superblock) (f : FileNo) (ip : Slot) (j : Nat) (w : ι → Writer) (s₀ : State)
    (l : List (Chunk ι)) (i : ι → Nat) (v : Vnode) (s : State) (k : ι → Option (FsM Int)) : Prop where
  shared : Shared sb ip j s v
  inode : (s.file f).type = .inode ∧ (s.file f).writable = true ∧ (s.file f).ip = ip
  order : InOrder (s₀.file f).off 0 l (s.file f).off i
  data : ∀ x ∈ l, x.off + x.len ≤ (s.file f).off ∧
    ∀ t, t < x.len → v.bytes (x.off + t) = (w x.who).mem ((w x.who).addr + x.i + t)
  phase : ∀ d, ∃ b, Phase sb f ip (w d) b (i d) (k d) ∧ (b = true → s.begun (w d).proc ≠ 0)

def Single (w : ι → Writer) (k : ι → Option (FsM Int)) : Prop :=
  ∀ c d, c ≠ d → (w c).proc = (w d).proc → idle (k c) = true ∨ idle (k d) = true

def Stopped (x : Option (FsM Int)) : Prop :=
  x = some (.op .endOp fun _ => .ret (-1)) ∨ x = some (.ret (-1))

/-- A call has the lock: it has begun its section in a state `s₁` between two others. -/
def Locked (sb : Superblock) (f : FileNo) (ip : Slot) (j : Nat) (w : ι → Writer) (s₀ : State) (s : State)
    (k : ι → Option (FsM Int)) : Prop :=
  ∃ c x l i v s₁ fuel, k c = some x ∧ s.lock ip = some (w c).proc ∧
    (w c).n ≤ fuel + 1 + i c ∧ i c < (w c).n ∧ s₁.begun (w c).proc ≠ 0 ∧
    Between sb f ip j w s₀ l i v s₁
      (update k c (some (acquiresleep ip >>= fun _ => (w c).locked sb f ip fuel (i c)))) ∧
    Section (reads (w c).mem) (w c).proc ip (SectionDone sb f ip j s₁ v (w c) fuel (i c)) x s

theorem Between.call (h : Between sb f ip j w s₀ l i v s k) (hc : k c = none) :
    Between sb f ip j w s₀ l i v s (update k c (some (filewrite sb f (w c).addr (w c).n))) := by
  refine ⟨h.shared, h.inode, h.order, h.data, fun d => ?_⟩
  by_cases hd : d = c
  · subst hd
    obtain ⟨b, hph, -⟩ := h.phase d
    rw [hc] at hph
    generalize i d = n at hph ⊢
    cases hph
    exact ⟨false, by rw [update_self]; exact .start, fun ht => by cases ht⟩
  · rw [update_of_ne hd]
    exact h.phase d

/-- An operation of `c` that at most counts a transaction. -/
theorem Between.move (h : Between sb f ip j w s₀ l i v s k) (hs : Single w k)
    (hc : idle (k c) = false) {begun : Proc → Nat} (hB : ∀ q, q ≠ (w c).proc → begun q = s.begun q)
    (b : Bool) {n : Nat} (hn : i c = n) (hx : Phase sb f ip (w c) b n (some x))
    (hb : b = true → begun (w c).proc ≠ 0) :
    Between sb f ip j w s₀ l i v { s with begun } (update k c (some x)) := by
  refine ⟨h.shared.begun begun, h.inode, h.order, h.data, fun d => ?_⟩
  by_cases hd : d = c
  · subst hd
    exact ⟨b, by rwa [update_self, hn], hb⟩
  · rw [update_of_ne hd]
    obtain ⟨b', hph, hb'⟩ := h.phase d
    refine ⟨b', hph, fun ht => ?_⟩
    by_cases hp : (w d).proc = (w c).proc
    · -- the process of `c` is in no other call
      have hidle := (hs c d (Ne.symm hd) hp.symm).resolve_left (by rw [hc]; exact Bool.false_ne_true)
      rw [hph.begun_of_idle hidle] at ht
      cases ht
    · exact (hB _ hp).trans_ne (hb' ht)

theorem Between.op (h : Between sb f ip j w s₀ l i v s k) (hs : Single w k) {x : o.Ans → FsM Int}
    {r : o.Ans} (hc : k c = some (.op o x)) (ho : perform ω (w c).proc s o = .ok (r, s')) :
    Between sb f ip j w s₀ l i v s' (update k c (some (x r))) ∨
      Locked sb f ip j w s₀ s' (update k c (some (x r))) := by
  have hidle : idle (k c) = false := by rw [hc]; rfl
  obtain ⟨b, hph, hb⟩ := h.phase c
  rw [hc] at hph
  generalize hn : i c = n at hph
  generalize hx : some (Code.op (S := sig) o x) = y at hph
  cases hph with
  | before => cases hx
  | start =>
    obtain ⟨g, hg, hhead⟩ := Writer.filewrite_eq sb f ip (w := w c)
    cases (Option.some.inj hx).trans hg
    obtain ⟨rfl, rfl⟩ := ok_inj ho
    rw [hhead _ h.inode.1 h.inode.2.1 h.inode.2.2]
    exact .inl (h.move hs hidle (fun _ _ => rfl) false hn (.head (Nat.le_add_right _ _) (Nat.zero_le _))
      fun ht => by cases ht)
  | @head fuel n hf hi =>
    by_cases hlt : n < (w c).n
    · obtain ⟨fuel, rfl⟩ : ∃ m, fuel = m + 1 := ⟨fuel - 1, by omega⟩
      cases (Option.some.inj hx).trans (Writer.head_succ sb f ip hlt)
      obtain ⟨rfl, rfl⟩ := ok_inj ho
      refine .inl (h.move hs hidle (fun q hq => update_of_ne hq _ _) true hn (.ilock (by omega) hlt) fun _ => ?_)
      rw [update_self]
      exact Nat.succ_ne_zero _
    · rw [Writer.head_end sb f ip (Nat.le_of_not_lt hlt)] at hx
      cases Option.some.inj hx
  | ilock hf hi =>
    cases Option.some.inj hx
    obtain ⟨rfl, rfl⟩ := ok_inj ho
    have href := h.shared.ref
    refine .inl (h.move hs hidle (fun _ _ => rfl) true hn ?_ hb)
    show Phase sb f ip (w c) true _ (some (if (s'.ident ip).ref < 1 then _ else _))
    rw [if_neg (by omega)]
    exact .acquire hf hi
  | @acquire fuel n hf hi =>
    cases Option.some.inj hx
    simp only [perform, h.shared.lock, if_true] at ho
    obtain ⟨-, rfl⟩ := ok_inj ho
    subst hn
    refine .inr ⟨c, _, l, i, v, s, fuel, update_self .., update_self .., hf, hi, hb rfl, ?_,
      h.shared.locked (hb rfl) hi⟩
    rw [update_idem, ← hx, ← hc, update_eq_self]
    exact h
  | @unlocked fuel n hf hi =>
    cases Option.some.inj hx
    obtain ⟨rfl, rfl⟩ := ok_inj ho
    have := Writer.len_pos hi
    refine .inl (h.move hs hidle (fun q hq => update_of_ne hq _ _) false hn ?_ fun ht => by cases ht)
    show Phase sb f ip (w c) false _ (some (if _ then _ else _))
    rw [if_neg (fun hne => hne rfl)]
    exact .head (by omega) (Writer.add_len_le (Nat.le_of_lt hi))

/-- A chunk has been written. -/
theorem Between.append {s₁ : State} {data : Bytes} (h : Between sb f ip j w s₀ l i v s₁
      (update k c (some x))) (hf : (w c).n ≤ fuel + 1 + i c) (hi : i c < (w c).n)
    (hb : s₁.begun (w c).proc ≠ 0)
    (hdata : ∀ t, t < (w c).len (i c) → data t = (w c).mem ((w c).addr + i c + t))
    (ha : Appended sb f ip j s₁ v ((w c).len (i c)) data s) :
    Between sb f ip j w s₀ (l ++ [⟨c, i c, (s₁.file f).off, (w c).len (i c)⟩])
      (i + Pi.single c ((w c).len (i c))) (v.write (s₁.file f).off ((w c).len (i c)) data) (s.setLock ip none)
      (update k c (some ((w c).unlocked sb f ip fuel (i c) ((w c).len (i c))))) := by
  have hoff : ((s.setLock ip none).file f).off = (s₁.file f).off + (w c).len (i c) := congrArg File.off ha.file
  refine ⟨ha.shared, ?_, ?_, fun x hx => ?_, fun d => ?_⟩
  · rw [show (s.setLock ip none).file f = _ from ha.file]
    exact h.inode
  · rw [hoff]
    exact h.order.snoc rfl rfl (Nat.min_le_right _ _)
  · rw [hoff]
    rcases List.mem_append.mp hx with hx | hx
    · obtain ⟨hle, hbytes⟩ := h.data x hx
      exact ⟨by omega, fun t ht => (if_neg (by omega)).trans (hbytes t ht)⟩
    · obtain rfl := List.mem_singleton.mp hx
      refine ⟨Nat.le_refl _, fun t ht => ?_⟩
      refine (if_pos ⟨Nat.le_add_right _ _, Nat.add_lt_add_left ht _⟩).trans ?_
      rw [Nat.add_sub_cancel_left, hdata t ht]
  · rw [show (s.setLock ip none).begun = s₁.begun from ha.begun]
    by_cases hd : d = c
    · subst hd
      rw [update_self, Pi.add_apply, Pi.single_eq_same]
      exact ⟨true, .unlocked hf hi, fun _ => hb⟩
    · have hph := h.phase d
      rw [update_of_ne hd] at hph
      rwa [update_of_ne hd, Pi.add_apply, Pi.single_eq_of_ne hd, Nat.add_zero]

theorem stopped_unlocked {w : Writer} {i : Nat} (hr : r ≠ w.len i) :
    Stopped (some (w.unlocked sb f ip fuel i r)) := by
  refine .inl (congrArg some (congrArg (Code.op _) (funext fun _ => ?_)))
  exact if_pos hr

/-- What holds along an interleaving, as long as no `writei` has failed. -/
structure Orderly (sb : Superblock) (f : FileNo) (ip : Slot) (j : Nat) (w : ι → Writer) (s₀ s : State)
    (k : ι → Option (FsM Int)) : Prop where
  single : Single w k
  now : (∃ c, Stopped (k c)) ∨ (∃ l i v, Between sb f ip j w s₀ l i v s k) ∨ Locked sb f ip j w s₀ s k

theorem Locked.op (h : Locked sb f ip j w s₀ s k) (hs : Single w k) {x : o.Ans → FsM Int}
    {r : o.Ans} (hc : k c = some (.op o x)) (hl : s.lock ip = none ∨ s.lock ip = some (w c).proc)
    (hω : (reads (w c).mem).Admits ω o) (ho : perform ω (w c).proc s o = .ok (r, s')) :
    Stopped (some (x r)) ∨ (∃ l i v, Between sb f ip j w s₀ l i v s' (update k c (some (x r)))) ∨
      Locked sb f ip j w s₀ s' (update k c (some (x r))) := by
  obtain ⟨d, y, l, i, v, s₁, fuel, hd, hlock, hf, hi, hb, hbet, hsec⟩ := h
  obtain rfl : d = c := by
    by_contra hne
    have hp : (w c).proc = (w d).proc := by
      rw [hlock] at hl
      simpa [eq_comm] using hl
    rcases hs c d (Ne.symm hne) hp with h | h
    · rw [hc] at h
      cases h
    · rw [hd] at h
      cases y with
      | ret a => exact hsec
      | op o x => cases h
  cases hd.symm.trans hc
  rcases hsec ω r s' hω ho with ⟨r', hr', hdone⟩ | ⟨hlock', hsec'⟩
  · rw [hr']
    by_cases he : r' = (w d).len (i d)
    · obtain ⟨data, s₂, rfl, hdata, ha⟩ := hdone he
      subst he
      exact .inr (.inl ⟨_, _, _, hbet.append hf hi hb hdata ha⟩)
    · exact .inl (stopped_unlocked he)
  · refine .inr (.inr ⟨d, _, l, i, v, s₁, fuel, update_self .., hlock', hf, hi, hb, ?_, hsec'⟩)
    rwa [update_idem]

theorem Single.update (h : Single w k)
    (hc : ∀ d, d ≠ c → (w d).proc = (w c).proc → idle (k d) = true) :
    Single w (update k c (some x)) := by
  intro a d hne hp
  by_cases ha : a = c
  · subst ha
    exact .inr (by rw [update_of_ne (Ne.symm hne)]; exact hc d (Ne.symm hne) hp.symm)
  · by_cases hd : d = c
    · subst hd
      exact .inl (by rw [update_of_ne hne]; exact hc a hne hp)
    · rw [update_of_ne ha, update_of_ne hd]
      exact h a d hne hp

theorem Orderly.step {k' : ι → Option (FsM Int)} (h : Orderly sb f ip j w s₀ s k)
    (hstep : Step sb f ip w (s, k) (s', k')) : Orderly sb f ip j w s₀ s' k' := by
  obtain ⟨hs, hnow⟩ := h
  cases hstep with
  | @call _ _ c hc hp =>
    refine ⟨hs.update fun d _ => hp d, ?_⟩
    rcases hnow with ⟨d, hd⟩ | ⟨l, i, v, hb⟩ | hl
    · refine .inl ⟨d, ?_⟩
      have hne : d ≠ c := by
        rintro rfl
        rw [hc] at hd
        rcases hd with hd | hd <;> cases hd
      rwa [update_of_ne hne]
    · exact .inr (.inl ⟨l, i, v, hb.call hc⟩)
    · obtain ⟨d, y, l, i, v, s₁, fuel, hd, hlock, hf, hi, hb, hbet, hsec⟩ := hl
      have hne : d ≠ c := by
        rintro rfl
        cases hd.symm.trans hc
      refine .inr (.inr ⟨d, y, l, i, v, s₁, fuel, (update_of_ne hne _ _).trans hd, hlock, hf, hi, hb, ?_, hsec⟩)
      rw [update_comm hne.symm]
      exact hbet.call ((update_of_ne hne.symm _ _).trans hc)
  | @op _ _ _ c o x r ω hc hl hω ho =>
    have hothers : ∀ d, d ≠ c → (w d).proc = (w c).proc → idle (k d) = true := fun d hd hp =>
      (hs d c hd hp).resolve_right (by rw [hc]; exact Bool.false_ne_true)
    refine ⟨hs.update hothers, ?_⟩
    rcases hnow with ⟨d, hd⟩ | ⟨l, i, v, hb⟩ | hlk
    · refine .inl ⟨d, ?_⟩
      by_cases hdc : d = c
      · subst hdc
        rw [hc] at hd
        rcases hd with hd | hd
        · cases Option.some.inj hd
          exact .inr (update_self ..)
        · cases Option.some.inj hd
      · rwa [update_of_ne hdc]
    · exact .inr ((hb.op hs hc ho).imp_left fun h => ⟨l, i, v, h⟩)
    · exact (hlk.op hs hc hl hω ho).imp_left fun h => ⟨c, by rwa [update_self]⟩

structure Apart [Fintype ι] (sb : Superblock) (f : FileNo) (j : Nat) (w : ι → Writer) (s s' : State)
    (l : List (Chunk ι)) : Prop where
  order : InOrder (s.file f).off 0 l (s'.file f).off fun c => (w c).n
  sum : (s'.file f).off = (s.file f).off + ∑ c, (w c).n
  data : ∃ v, volume sb s'.disk j = some v ∧ ∀ x ∈ l, ∀ t, t < x.len →
    v.bytes (x.off + t) = (w x.who).mem ((w x.who).addr + x.i + t)

end

/-! ### Three calls of two processes -/

section Play

variable [DecidableEq ι] [Fintype ι] {sb : Superblock} {f : FileNo} {ip : Slot} {w : ι → Writer}

/-- What a call is answered when its memory is all there. -/
def Writer.answer (w : Writer) : Op → Oracle
  | .copyin src _ => { (default : Oracle) with copyin := ⟨fun t => w.mem (src + t), none⟩ }
  | _ => default

def move (sb : Superblock) (f : FileNo) (ip : Slot) (w : ι → Writer) (c : ι) (s : State)
    (k : ι → Option (FsM Int)) : Option (Running ι) :=
  match k c with
  | none =>
    if ∀ d, (w d).proc = (w c).proc → idle (k d) = true then
      some (s, update k c (some (filewrite sb f (w c).addr (w c).n)))
    else none
  | some (.ret _) => none
  | some (.op o x) =>
    if s.lock ip = none ∨ s.lock ip = some (w c).proc then
      match perform ((w c).answer o) (w c).proc s o with
      | .ok (r, s') => some (s', update k c (some (x r)))
      | .error _ => none
    else none

end Play

def result : Option (FsM Int) → Option Int
  | some (.ret r) => some r
  | _ => none

end ZeptOS.Fs
