import ZeptOS.Console.Model
import ZeptOS.Mem.Copy
import ZeptOS.Sched.Loops

/-!
# Reads into a user's memory

`fileread` passes a count of the system call to `piperead`, `readi` or `consoleread`, and each of
them copies to the user's memory as it goes. What matters here is which bytes are stored, in which
order, and what is returned; where the kernel can store, `ok` says. `copyout_stores` is the bridge
to the page tables: for a table that the copy does not write to, `ok` is the user's permission to
write.

The count is an `int`. `readi` takes it as an `uint`, so that a negative count is a large one.
-/

namespace ZeptOS.Read

open Console (Output)
open Sched (Pipe PIPESIZE)

variable {st : Stores} {dst addr : UInt64} {r : Int} {ok : UInt64 → Bool} {src : List UInt8}
  {target : Nat} {ip : Inode}

/-- What a copy stores: the address of each byte and the byte. -/
abbrev Stores := List (UInt64 × UInt8)

/-- `copyout`, byte by byte: the stores, and whether that was all. -/
def copyout (ok : UInt64 → Bool) : UInt64 → List UInt8 → Stores × Bool
  | _, [] => ([], true)
  | dst, c :: src =>
    if ok dst then
      let (st, all) := copyout ok (dst + 1) src
      ((dst, c) :: st, all)
    else ([], false)

def after (st : Stores) (o : Output) : Output := ⟨st ++ o.stored, o.result⟩

/-! ## `piperead` -/

def pipereadLoop (ok : UInt64 → Bool) (addr : UInt64) : Nat → Nat → Pipe → Pipe × Output
  | 0, i, pi => (pi, ⟨[], some i⟩)
  | k + 1, i, pi =>
    if pi.nread = pi.nwrite then (pi, ⟨[], some i⟩)
    else
      let ch := pi.at pi.nread
      let pi := { pi with nread := pi.nread + 1 }
      match copyout ok (addr + UInt64.ofNat i) [ch] with
      | (st, false) => (pi, ⟨st, some i⟩)
      | (st, true) =>
        let (pi, o) := pipereadLoop ok addr k (i + 1) pi
        (pi, after st o)

def piperead (ok : UInt64 → Bool) (addr : UInt64) (n : Int) (pi : Pipe) : Pipe × Output :=
  pipereadLoop ok addr n.toNat 0 pi

/-! ## `readi` -/

/-- An inode as `readi` sees it: its bytes, and for which blocks `bmap` has an address. -/
structure Inode where
  size : Nat
  data : Nat → UInt8
  mapped : Nat → Bool
  size_le : size ≤ MAXFILE * BSIZE

def readiLoop (ok : UInt64 → Bool) (ip : Inode) (n : Nat) : Nat → Nat → Nat → UInt64 → Output
  | 0, tot, _, _ => ⟨[], some tot⟩
  | k + 1, tot, off, dst =>
    if tot < n then
      if ip.mapped (off / BSIZE) = false then ⟨[], some tot⟩
      else
        let m := min (n - tot) (BSIZE - off % BSIZE)
        match copyout ok dst ((List.range m).map fun j => ip.data (off + j)) with
        | (st, false) => ⟨st, some (-1)⟩
        | (st, true) => after st (readiLoop ok ip n k (tot + m) (off + m) (dst + UInt64.ofNat m))
    else ⟨[], some tot⟩

/-- `readi(ip, 1, dst, off, n)` -/
def readi (ok : UInt64 → Bool) (ip : Inode) (dst : UInt64) (off n : Nat) : Output :=
  if off > ip.size ∨ (off + n) % 2 ^ 32 < off then ⟨[], some 0⟩
  else
    let n := if (off + n) % 2 ^ 32 > ip.size then ip.size - off else n
    readiLoop ok ip n n 0 off dst

/-! ## `fileread` -/

/-- `consoleread` from a byte to its return. Between two parts it sleeps, and the console is another
    when it wakes up. -/
inductive ConsoleRead (ok : UInt64 → Bool) (target : Nat) : Nat → UInt64 → Stores → Int → Prop
  | ret {killed : Bool} {cons cons' : Console.Cons} {left : Nat} {dst : UInt64} {st : Stores}
      {r : Int} (h : Console.readLoop killed ok target left dst cons = (cons', .idle, ⟨st, some r⟩)) :
      ConsoleRead ok target left dst st r
  | sleep {killed : Bool} {cons cons' : Console.Cons} {left left' : Nat} {dst dst' : UInt64}
      {st st' : Stores} {r : Int}
      (h : Console.readLoop killed ok target left dst cons =
        (cons', .asleep dst' left' target ok, ⟨st, none⟩))
      (rest : ConsoleRead ok target left' dst' st' r) : ConsoleRead ok target left dst (st ++ st') r

inductive File where
  | pipe
  | inode (ip : Inode) (off : Nat)
  | console

/-- `fileread` of a readable file: what it stores and returns. The count is an `int`. -/
inductive Fileread (ok : UInt64 → Bool) (addr : UInt64) (n : BitVec 32) : File → Stores → Int → Prop
  | pipe {pi pi' : Pipe} {st : Stores} {r : Int}
      (h : piperead ok addr n.toInt pi = (pi', ⟨st, some r⟩)) : Fileread ok addr n .pipe st r
  | killed : Fileread ok addr n .pipe [] (-1)
  | inode {ip : Inode} {off : Nat} {st : Stores} {r : Int}
      (h : readi ok ip addr off n.toNat = ⟨st, some r⟩) : Fileread ok addr n (.inode ip off) st r
  | console {st : Stores} {r : Int} (h : ConsoleRead ok n.toInt.toNat n.toInt.toNat addr st r) :
      Fileread ok addr n .console st r

/-! ## Copies -/

theorem add_ofNat (a : UInt64) (i j : Nat) :
    a + UInt64.ofNat i + UInt64.ofNat j = a + UInt64.ofNat (i + j) := by
  rw [UInt64.ofNat_add, UInt64.add_assoc]

theorem copyout_cons (c : UInt8) (src : List UInt8) : copyout ok dst (c :: src) =
    if ok dst then ((dst, c) :: (copyout ok (dst + 1) src).1, (copyout ok (dst + 1) src).2)
    else ([], false) := rfl

theorem mem_copyout : ∀ {dst : UInt64} {x : UInt64 × UInt8}, x ∈ (copyout ok dst src).1 →
    ∃ k < src.length, x.1 = dst + UInt64.ofNat k := by
  induction src with
  | nil => intro dst x h; exact absurd h List.not_mem_nil
  | cons c src ih =>
    intro dst x h
    rw [copyout_cons] at h
    split at h
    · rcases List.mem_cons.mp h with rfl | h
      · exact ⟨0, Nat.succ_pos _, by simp⟩
      · obtain ⟨k, hk, hx⟩ := ih h
        refine ⟨k + 1, Nat.succ_lt_succ hk, ?_⟩
        rw [hx, Nat.add_comm k, ← add_ofNat]
        rfl
    · exact absurd h List.not_mem_nil

/-- **The copy of the page tables is this copy.** `ok` is the permission to write, and a store goes
    where the address leads. -/
theorem copyout_stores {s : Mem.Vm} {r : Nat} (hap : s.Apart r dst.toNat src.length) :
    Mem.copyout r dst.toNat src s =
      .ok (if (copyout (fun a => decide (s.writable r a.toNat)) dst src).2 then 0 else -1,
        s.pokes ((copyout (fun a => decide (s.writable r a.toNat)) dst src).1.map
          fun x => (s.phys r x.1.toNat, x.2))) := by
  have hstep : ∀ {src : List UInt8} {dst : UInt64},
      (copyout (fun a => decide (s.writable r a.toNat)) dst src).2 =
        decide (∀ a ∈ Mem.addrs dst.toNat src.length, s.writable r a) ∧
      (copyout (fun a => decide (s.writable r a.toNat)) dst src).1.map
        (fun x => (s.phys r x.1.toNat, x.2)) =
        ((Mem.stretch (s.writable r) dst.toNat src.length).map (s.phys r)).zip src := by
    intro src
    induction src with
    | nil => intro dst; exact ⟨rfl, rfl⟩
    | cons c src ih =>
      intro dst
      obtain ⟨h1, h2⟩ := @ih (dst + 1)
      have hnext : (dst + 1).toNat = add64 dst.toNat 1 := rfl
      rw [copyout_cons, List.length_cons]
      unfold Mem.stretch at h2 ⊢
      rw [Mem.addrs_cons dst.toNat_lt, ← hnext]
      by_cases hw : s.writable r dst.toNat
      · simp [hw, h1, h2]
      · simp [hw]
  rw [Mem.copyout_eq dst.toNat_lt hap, hstep.1, hstep.2]
  simp only [decide_eq_true_eq]

/-! ## What a read of a pipe takes -/

section

variable {n : Int} {pi : Pipe}

/-- The `m` oldest bytes of a pipe, at `m` addresses from the `i`-th on. -/
def oldest (pi : Pipe) (addr : UInt64) (i m : Nat) : Stores :=
  (List.range m).map fun j => (addr + UInt64.ofNat (i + j), pi.at (pi.nread + UInt32.ofNat j))

theorem nread_next (i : UInt32) (j : Nat) : i + 1 + UInt32.ofNat j = i + UInt32.ofNat (j + 1) := by
  rw [UInt32.add_assoc, UInt32.add_comm 1, UInt32.ofNat_add]
  rfl

theorem oldest_succ (pi : Pipe) (addr : UInt64) (i m : Nat) : oldest pi addr i (m + 1) =
    (addr + UInt64.ofNat i, pi.at pi.nread) ::
      oldest { pi with nread := pi.nread + 1 } addr (i + 1) m := by
  unfold oldest
  rw [List.range_succ_eq_map, List.map_cons, List.map_map]
  congr 1
  · simp
  · refine List.map_congr_left fun j _ => ?_
    simp only [Function.comp_apply, nread_next, Nat.succ_eq_add_one, Nat.add_assoc, Nat.add_comm 1 j]
    rfl

/-- The bytes that the loop comes to: those asked for, if the pipe has them. -/
def within (pi : Pipe) (k : Nat) : Nat := min k (pi.nwrite - pi.nread).toNat

theorem within_next {k : Nat} (h : pi.nread ≠ pi.nwrite) :
    within pi (k + 1) = within { pi with nread := pi.nread + 1 } k + 1 := by
  have hne : pi.nread.toNat ≠ pi.nwrite.toNat := fun he => h (UInt32.toNat_inj.mp he)
  have hr := pi.nread.toNat_lt
  have hw := pi.nwrite.toNat_lt
  simp only [within, UInt32.toNat_sub, UInt32.toNat_add, UInt32.toNat_one]
  omega

/-- **The loop of `piperead`.** It stores up to the first address that it cannot store to, and has
    then taken one byte more than it has stored. -/
theorem pipereadLoop_eq : ∀ {k i m : Nat} {pi : Pipe}, m ≤ within pi k →
    (∀ j < m, ok (addr + UInt64.ofNat (i + j)) = true) →
    (m < within pi k → ok (addr + UInt64.ofNat (i + m)) = false) → pipereadLoop ok addr k i pi =
      ({ pi with nread := pi.nread + UInt32.ofNat (if m < within pi k then m + 1 else m) },
        ⟨oldest pi addr i m, some (i + m : Nat)⟩) := by
  intro k
  induction k with
  | zero =>
    intro i m pi hm _ _
    obtain rfl : m = 0 := by simpa [within] using hm
    simp [pipereadLoop, oldest, within]
  | succ k ih =>
    intro i m pi hm hok hstop
    by_cases hempty : pi.nread = pi.nwrite
    · have h0 : within pi (k + 1) = 0 := by simp [within, hempty]
      rw [h0] at hm
      obtain rfl : m = 0 := Nat.le_zero.mp hm
      rw [pipereadLoop, if_pos hempty, h0]
      simp [oldest]
    · rw [within_next hempty] at hm hstop ⊢
      rw [pipereadLoop, if_neg hempty]
      dsimp only
      rw [copyout_cons]
      cases m with
      | zero =>
        have hno : ok (addr + UInt64.ofNat i) = false := hstop (Nat.succ_pos _)
        simp [hno, oldest]
      | succ m =>
        have hyes : ok (addr + UInt64.ofNat i) = true := hok 0 (Nat.succ_pos _)
        have hrest := @ih (i + 1) m { pi with nread := pi.nread + 1 } (by omega)
          (fun j hj => by rw [Nat.add_assoc, Nat.add_comm 1]; exact hok (j + 1) (by omega))
          (fun h => by rw [Nat.add_assoc, Nat.add_comm 1]; exact hstop (by omega))
        simp only [hyes, if_true, hrest, copyout, after]
        rw [oldest_succ, nread_next, Nat.add_assoc i, Nat.add_comm 1 m]
        congr 4
        split <;> split <;> omega

/-- **`piperead` takes what it delivers exactly when it can store every byte that it comes to.** -/
theorem piperead_consumes_iff : (∃ i : Nat, piperead ok addr n pi =
      ({ pi with nread := pi.nread + UInt32.ofNat i }, ⟨oldest pi addr 0 i, some i⟩)) ↔
      ∀ j < within pi n.toNat, ok (addr + UInt64.ofNat j) = true := by
  constructor
  · rintro ⟨i, hi⟩
    by_contra hall
    simp only [not_forall, Bool.not_eq_true] at hall
    -- the first address that cannot be stored to
    obtain ⟨hm, hno⟩ := Nat.find_spec hall
    have hfirst : ∀ j < Nat.find hall, ok (addr + UInt64.ofNat j) = true := by
      intro j hj
      by_contra hj'
      exact Nat.find_min hall hj ⟨by omega, by simpa using hj'⟩
    generalize Nat.find hall = m at hm hno hfirst
    unfold piperead at hi
    rw [@pipereadLoop_eq addr ok n.toNat 0 m pi hm.le (by simpa using hfirst)
      (fun _ => by simpa using hno), if_pos hm] at hi
    obtain ⟨hpi, ho⟩ := Prod.mk.inj hi
    have hres : m = i := by
      have := congrArg Output.result ho
      simpa using this
    have hnread := congrArg (fun p : Pipe => p.nread.toNat) hpi
    simp only [UInt32.toNat_add, UInt32.toNat_ofNat', hres] at hnread
    omega
  · intro hall
    refine ⟨within pi n.toNat, ?_⟩
    have h := @pipereadLoop_eq addr ok n.toNat 0 _ pi le_rfl (by simpa using hall)
      (fun h => absurd h (Nat.lt_irrefl _))
    rw [if_neg (Nat.lt_irrefl _), Nat.zero_add] at h
    exact h

def oneByte : Pipe := ⟨fun _ => 0x61, 0, 1, true, true⟩

/-- **A byte that cannot be stored is lost.** Nothing is read, and the pipe is empty afterwards. -/
theorem piperead_loses_byte : (piperead (fun _ => false) 0 1 oneByte).2 = ⟨[], some 0⟩ ∧
      (piperead (fun _ => false) 0 1 oneByte).1.nread = oneByte.nwrite := by
  decide

end

/-! ## No read stores more than it was asked for -/

/-- The stores are in the first `n` addresses, and no more than `n` is returned. -/
def Bounded (addr : UInt64) (n : Nat) (st : Stores) (r : Int) : Prop :=
  r ≤ n ∧ ∀ x ∈ st, ∃ k < n, x.1 = addr + UInt64.ofNat k

theorem Bounded.mono {n n' : Nat} (h : Bounded addr n st r) (hn : n ≤ n') :
    Bounded addr n' st r := by
  refine ⟨by have := h.1; omega, fun x hx => ?_⟩
  obtain ⟨k, hk, he⟩ := h.2 x hx
  exact ⟨k, by omega, he⟩

theorem Bounded.append {n : Nat} {st' : Stores} (h : ∀ x ∈ st, ∃ k < n, x.1 = addr + UInt64.ofNat k)
    (h' : Bounded addr n st' r) : Bounded addr n (st ++ st') r :=
  ⟨h'.1, fun x hx => (List.mem_append.mp hx).elim (h x) (h'.2 x)⟩

theorem copyout_bounded {i n : Nat} (h : i + src.length ≤ n) :
    ∀ x ∈ (copyout ok (addr + UInt64.ofNat i) src).1, ∃ k < n, x.1 = addr + UInt64.ofNat k := by
  intro x hx
  obtain ⟨k, hk, he⟩ := mem_copyout hx
  exact ⟨i + k, by omega, by rw [he, add_ofNat]⟩

theorem pipereadLoop_bounded {n : Nat} : ∀ {k i : Nat} {pi : Pipe}, i + k ≤ n →
    ∃ r, (pipereadLoop ok addr k i pi).2.result = some r ∧
      Bounded addr n (pipereadLoop ok addr k i pi).2.stored r := by
  intro k
  induction k with
  | zero => intro i pi h; exact ⟨i, rfl, by omega, by simp [pipereadLoop]⟩
  | succ k ih =>
    intro i pi h
    have hcopy := @copyout_bounded addr ok [pi.at pi.nread] i n (by simp; omega)
    rw [pipereadLoop]
    split
    · exact ⟨i, rfl, by omega, by simp⟩
    · dsimp only
      split <;> rename_i hst <;> rw [hst] at hcopy
      · exact ⟨i, rfl, by omega, hcopy⟩
      · obtain ⟨r, hr, hb⟩ := @ih (i + 1) { pi with nread := pi.nread + 1 } (by omega)
        exact ⟨r, hr, hb.append hcopy⟩

theorem readiLoop_bounded {n : Nat} : ∀ {k tot off : Nat}, tot ≤ n →
    ∃ r, (readiLoop ok ip n k tot off (addr + UInt64.ofNat tot)).result = some r ∧
      Bounded addr n (readiLoop ok ip n k tot off (addr + UInt64.ofNat tot)).stored r := by
  intro k
  induction k with
  | zero => intro tot off h; exact ⟨tot, rfl, by omega, by simp [readiLoop]⟩
  | succ k ih =>
    intro tot off h
    obtain ⟨m, hm⟩ : ∃ m, m = min (n - tot) (BSIZE - off % BSIZE) := ⟨_, rfl⟩
    have hcopy := @copyout_bounded addr ok ((List.range m).map fun j => ip.data (off + j)) tot n
      (by simp; omega)
    rw [readiLoop, ← hm]
    split
    · split
      · exact ⟨tot, rfl, by omega, by simp⟩
      · dsimp only
        split <;> rename_i hst <;> rw [hst] at hcopy
        · exact ⟨-1, rfl, by omega, hcopy⟩
        · rw [add_ofNat]
          obtain ⟨r, hr, hb⟩ := @ih (tot + m) (off + m) (by omega)
          exact ⟨r, hr, hb.append hcopy⟩
    · exact ⟨tot, rfl, by omega, by simp⟩

theorem idle_bounded {v : Int} (hv : v ≤ target) {cons : Console.Cons} :
    let o : Console.Cons × Console.Reader × Output := (cons, .idle, ⟨[], some v⟩)
    (∀ x ∈ o.2.2.stored, ∃ k < target, x.1 = addr + UInt64.ofNat k) ∧
      (∀ r, o.2.2.result = some r → r ≤ target) ∧
      ∀ dst' left' t ok', o.2.1 = .asleep dst' left' t ok' →
        ∃ i', i' + left' = target ∧ dst' = addr + UInt64.ofNat i' := by
  refine ⟨by simp, fun r he => ?_, nofun⟩
  cases he
  exact hv

theorem readLoop_bounded {killed : Bool} : ∀ {left i : Nat} {cons : Console.Cons},
    i + left = target →
    (∀ x ∈ (Console.readLoop killed ok target left (addr + UInt64.ofNat i) cons).2.2.stored,
      ∃ k < target, x.1 = addr + UInt64.ofNat k) ∧
    (∀ r, (Console.readLoop killed ok target left (addr + UInt64.ofNat i) cons).2.2.result = some r →
      r ≤ target) ∧
    ∀ dst' left' t o, (Console.readLoop killed ok target left (addr + UInt64.ofNat i) cons).2.1 =
      .asleep dst' left' t o → ∃ i', i' + left' = target ∧ dst' = addr + UInt64.ofNat i' := by
  intro left
  induction left with
  | zero => intro i cons h; simp [Console.readLoop]
  | succ left ih =>
    intro i cons h
    have hdst : ∃ k < target, addr + UInt64.ofNat i = addr + UInt64.ofNat k := ⟨i, by omega, rfl⟩
    have hrest := @ih (i + 1) { cons with r := cons.r + 1 } (by omega)
    rw [← add_ofNat] at hrest
    rw [Console.readLoop]
    split
    · cases killed with
      | true => exact idle_bounded (by omega)
      | false =>
        refine ⟨by simp, by simp, fun dst' left' t o he => ?_⟩
        cases he
        exact ⟨i, h, rfl⟩
    · dsimp only
      split
      · exact idle_bounded (by omega)
      split
      · exact idle_bounded (by omega)
      split
      · refine ⟨by simpa using hdst, fun r he => ?_, nofun⟩
        cases he
        omega
      · refine ⟨fun x hx => ?_, hrest.2⟩
        rcases List.mem_cons.mp hx with rfl | hx
        · exact hdst
        · exact hrest.1 x hx

theorem consoleRead_bounded {left i : Nat} (h : ConsoleRead ok target left dst st r)
    (hi : i + left = target) (hd : dst = addr + UInt64.ofNat i) : Bounded addr target st r := by
  induction h generalizing i with
  | ret h =>
    subst hd
    obtain ⟨hst, hr, -⟩ := @readLoop_bounded addr ok _ _ _ i _ hi
    rw [h] at hst hr
    exact ⟨hr _ rfl, hst⟩
  | sleep h _ ih =>
    subst hd
    obtain ⟨hst, -, hsleep⟩ := @readLoop_bounded addr ok _ _ _ i _ hi
    rw [h] at hst hsleep
    obtain ⟨i', hi', hd'⟩ := hsleep _ _ _ _ rfl
    exact (ih hi' hd').append hst

/-- Where a read is bounded: for an inode, a negative count does no harm if nothing is read. -/
def File.Fits (ok : UInt64 → Bool) (addr : UInt64) (n : BitVec 32) : File → Prop
  | .inode ip off => 0 ≤ n.toInt ∨ ip.size ≤ off ∨ 0 ≤ off + n.toInt ∨
      ip.mapped (off / BSIZE) = false ∨ ok addr = false
  | _ => True

/-- A negative count: something is read up to the end of the file, unless one of these keeps it
    from it. -/
theorem readi_negative {off : Nat} {n : BitVec 32} (hn : n.toInt < 0) :
    ∃ r, (readi ok ip addr off n.toNat).result = some r ∧
      (Bounded addr 0 (readi ok ip addr off n.toNat).stored r ↔
        (File.inode ip off).Fits ok addr n) := by
  have hsize := ip.size_le
  have hmax : MAXFILE * BSIZE < 2 ^ 31 := by decide
  have hN : n.toNat = 2 ^ 32 + n.toInt ∧ 2 ^ 31 ≤ n.toNat := by
    have := BitVec.toInt_eq_toNat_cond n
    have := n.isLt
    omega
  have quiet {v : Int} (hv : v ≤ 0) : Bounded addr 0 [] v := ⟨hv, by simp⟩
  unfold readi
  by_cases hout : off > ip.size ∨ (off + n.toNat) % 2 ^ 32 < off
  · rw [if_pos hout]
    refine ⟨0, rfl, iff_of_true (quiet le_rfl) ?_⟩
    show _ ∨ _
    omega
  · rw [if_neg hout, if_pos (by omega)]
    dsimp only
    cases hk : ip.size - off with
    | zero => exact ⟨0, rfl, iff_of_true (quiet le_rfl) (by show _ ∨ _; omega)⟩
    | succ k =>
      have hres := @readiLoop_bounded addr ok ip (k + 1) (k + 1) 0 off (Nat.zero_le _)
      rw [show addr + UInt64.ofNat 0 = addr from UInt64.add_zero addr] at hres
      obtain ⟨r, hr, -⟩ := hres
      refine ⟨r, hr, ?_⟩
      rw [readiLoop, if_pos (Nat.succ_pos k)] at hr ⊢
      by_cases hmap : ip.mapped (off / BSIZE) = false
      · rw [if_pos hmap] at hr ⊢
        cases hr
        exact iff_of_true (quiet le_rfl) (.inr (.inr (.inr (.inl hmap))))
      obtain ⟨m, hm⟩ : ∃ m, min (k + 1 - 0) (BSIZE - off % BSIZE) = m + 1 := by
        have := mod_BSIZE_lt off
        exact ⟨_, (Nat.sub_add_cancel (by omega)).symm⟩
      rw [if_neg hmap, hm] at hr ⊢
      dsimp only at hr ⊢
      rw [List.range_succ_eq_map, List.map_cons, copyout_cons] at hr ⊢
      by_cases hok : ok addr = true
      · refine iff_of_false (fun h => ?_) ?_
        · -- the first byte of the file has been stored
          rw [if_pos hok] at h
          generalize copyout ok (addr + 1) _ = rest at h
          obtain ⟨st, all⟩ := rest
          obtain ⟨j, hj, -⟩ := h.2 (addr, ip.data (off + 0)) (by cases all <;> simp [after])
          omega
        · rintro (h | h | h | h | h)
          · omega
          · omega
          · omega
          · exact hmap h
          · simp [hok] at h
      · rw [if_neg hok] at hr ⊢
        cases hr
        exact iff_of_true (quiet (by decide)) (.inr (.inr (.inr (.inr (by simpa using hok)))))

/-- **`read` transfers no more than it is asked for, exactly when it is not a negative count that
    `readi` takes for a large one.** -/
theorem fileread_bounded_iff (f : File) (n : BitVec 32) :
    (∀ st r, Fileread ok addr n f st r → Bounded addr n.toInt.toNat st r) ↔ f.Fits ok addr n := by
  cases f with
  | pipe =>
    refine iff_of_true (fun st r h => ?_) trivial
    cases h with
    | @pipe pi _ _ _ h =>
      obtain ⟨r', hr, hb⟩ := @pipereadLoop_bounded addr ok _ n.toInt.toNat 0 pi (Nat.zero_add _).le
      unfold piperead at h
      rw [h] at hr hb
      cases hr
      exact hb
    | killed => exact ⟨by omega, by simp⟩
  | console =>
    refine iff_of_true (fun st r h => ?_) trivial
    cases h with
    | console h => exact consoleRead_bounded h (Nat.zero_add _) (by simp)
  | inode ip off =>
    by_cases hn : n.toInt < 0
    · obtain ⟨r, hr, hfits⟩ := @readi_negative addr ok ip off n hn
      rw [← hfits, show n.toInt.toNat = 0 by omega]
      refine ⟨fun h => h _ r (.inode ?_), fun h st r' hf => ?_⟩
      · rw [← hr]
      · cases hf with
        | inode hf =>
          rw [hf] at hr h
          cases hr
          exact h
    · refine iff_of_true (fun st r hf => ?_) (.inl (by omega))
      cases hf with
      | inode hf =>
        have hcount : n.toNat = n.toInt.toNat := by
          have := BitVec.toInt_eq_toNat_cond n
          omega
        unfold readi at hf
        split at hf
        · cases hf
          exact ⟨by omega, by simp⟩
        · dsimp only at hf
          generalize hc : (if (off + n.toNat) % 2 ^ 32 > ip.size then ip.size - off else n.toNat) = c
            at hf
          have hle : c ≤ n.toInt.toNat := by
            split at hc <;> omega
          obtain ⟨r', hr, hb⟩ := @readiLoop_bounded addr ok ip c c 0 off (Nat.zero_le _)
          rw [show addr + UInt64.ofNat 0 = addr from UInt64.add_zero addr, hf] at hr hb
          cases hr
          exact hb.mono hle

def oneByteFile : Inode := ⟨1, fun _ => 0x61, fun _ => true, by decide⟩

/-- **`read` with count -1 reads the file.** -/
theorem fileread_negative_count :
    Fileread (fun _ => true) 0 (-1) (.inode oneByteFile 0) [(0, 0x61)] 1 ∧
      ¬ Bounded 0 (-1 : BitVec 32).toInt.toNat [(0, 0x61)] 1 :=
  ⟨.inode (by decide), fun h => absurd h.1 (by decide)⟩

end ZeptOS.Read
