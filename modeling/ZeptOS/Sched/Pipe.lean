import ZeptOS.Lib.Ring
import ZeptOS.Sched.Wakeup

/-!
# A pipe is a queue

`nread` and `nwrite` are 32-bit counters that go up and wrap. The pipe is empty when they are
equal and full when they are `PIPESIZE` apart; that both tests are right for ever is because
`PIPESIZE` divides the size of the word.

A run is recorded with what the writers have stored and what the readers have taken. Both lists
grow where `pipewrite` and `piperead` move a byte, and there is no other place.
-/

namespace ZeptOS.Sched

open Lib

variable {pi : Pipe} {put : List UInt8} {id : Nat}

/-! ## Bytes in and out -/

def Pipe.puts (pi : Pipe) : Local → List UInt8
  | .pipewriteAlive (some ch :: _) _ =>
    if pi.nwrite = pi.nread + PIPESIZE.toUInt32 then [] else [ch]
  | _ => []

/-- What `piperead` has in `ch` after it has taken a byte. -/
def Local.taken : Local → List UInt8
  | .pipereadCopy _ _ _ ch | .pipereadEnd _ ch => [ch]
  | _ => []

def Pipe.gets (id : Nat) (pi : Pipe) (x : Local) : List UInt8 :=
  match pipeCode id pi x with
  | .write _ x' => x'.taken
  | _ => []

/-- What the code does to a pipe, with the bytes that it puts and takes. -/
inductive Pipe.Writes (pi : Pipe) : List UInt8 → List UInt8 → Pipe → Prop
  | put {ch : UInt8} (hfull : pi.nwrite ≠ pi.nread + PIPESIZE.toUInt32) :
      Writes pi [ch] [] { pi with
        data := Function.update pi.data (Fin.ofNat _ pi.nwrite.toNat) ch
        nwrite := pi.nwrite + 1 }
  | get (hne : pi.nread ≠ pi.nwrite) : Writes pi [] [pi.at pi.nread] { pi with nread := pi.nread + 1 }
  | close {r w : Bool} : Writes pi [] [] { pi with readopen := r, writeopen := w }

theorem pipereadCopy_writes {room i : Nat} {n : Int} (hp : put = []) :
    match pipereadCopy id pi n room i with
    | .write d x' => ∃ pi', d = .pipe pi' ∧ pi.Writes put x'.taken pi'
    | _ => put = [] := by
  unfold pipereadCopy
  by_cases hi : i < n
  · by_cases hne : pi.nread = pi.nwrite
    · simp only [hi, hne, if_true]
      exact hp
    · simp only [hi, hne, if_true, if_false]
      refine ⟨_, rfl, ?_⟩
      subst hp
      split <;> exact .get hne
  · simp only [hi, if_false]
    exact hp

theorem pipeCode_writes (id : Nat) (pi : Pipe) (x : Local) : match pipeCode id pi x with
    | .write d x' => ∃ pi', d = .pipe pi' ∧ pi.Writes (pi.puts x) x'.taken pi'
    | _ => pi.puts x = [] := by
  cases x with
  | pipewrite src i =>
    cases src with
    | nil => rfl
    | cons c src => cases hr : pi.readopen <;> simp [pipeCode, hr, Pipe.puts]
  | pipewriteAlive src i =>
    cases src with
    | nil => rfl
    | cons c src =>
      by_cases hfull : pi.nwrite = pi.nread + PIPESIZE.toUInt32
      · simp only [pipeCode, hfull, if_true]
        cases c <;> simp [Pipe.puts, hfull]
      · simp only [pipeCode, hfull, if_false]
        cases c with
        | none => rfl
        | some ch =>
          refine ⟨_, rfl, ?_⟩
          rw [Pipe.puts, if_neg hfull]
          exact .put hfull
  | piperead n room =>
    by_cases hempty : pi.nread = pi.nwrite ∧ pi.writeopen
    · simp only [pipeCode, hempty, and_self, if_true]
      rfl
    · simp only [pipeCode, hempty, if_false]
      exact pipereadCopy_writes rfl
  | pipereadCopy n room i ch => exact pipereadCopy_writes rfl
  | pipeclose writable => cases writable <;> exact ⟨_, rfl, .close⟩
  | pipecloseEnd writable => cases writable <;> rfl
  | _ => rfl

/-! ## Counters -/

structure Traffic where
  accepted : List UInt8
  removed : List UInt8

structure Pipe.Fifo (pi : Pipe) (t : Traffic) : Prop where
  ring : Ring pi.data t.accepted t.removed
  nread : pi.nread = UInt32.ofNat t.removed.length
  nwrite : pi.nwrite = UInt32.ofNat t.accepted.length

section Counters

variable {pi' : Pipe} {t : Traffic} {got : List UInt8}

theorem Pipe.Fifo.used (F : pi.Fifo t) :
    (pi.nwrite - pi.nread).toNat = t.accepted.length - t.removed.length := by
  have hle := F.ring.fifo.length_le
  have hroom : t.accepted.length ≤ t.removed.length + 512 := F.ring.room
  rw [F.nread, F.nwrite, UInt32.toNat_sub]
  exact sub_mod_of_le hle (by omega)

theorem cell_ofNat (k : Nat) : Fin.ofNat PIPESIZE (UInt32.ofNat k).toNat = Fin.ofNat PIPESIZE k :=
  ofNat_mod_of_dvd (show PIPESIZE ∣ 2 ^ 32 by decide) k

theorem Pipe.Fifo.not_full (F : pi.Fifo t) (h : pi.nwrite ≠ pi.nread + PIPESIZE.toUInt32) :
    t.accepted.length < t.removed.length + PIPESIZE := by
  refine Nat.lt_of_le_of_ne F.ring.room fun he => h ?_
  rw [F.nread, F.nwrite, he, UInt32.ofNat_add]

theorem Pipe.Fifo.not_empty (F : pi.Fifo t) (h : pi.nread ≠ pi.nwrite) :
    t.removed.length < t.accepted.length := by
  refine Nat.lt_of_le_of_ne F.ring.fifo.length_le fun he => h ?_
  rw [F.nread, F.nwrite, he]

theorem Pipe.Fifo.at_ofNat (k : Nat) : pi.at (UInt32.ofNat k) = pi.data (Fin.ofNat _ k) :=
  congrArg pi.data (cell_ofNat k)

def Traffic.add (t : Traffic) (put got : List UInt8) : Traffic :=
  ⟨t.accepted ++ put, t.removed ++ got⟩

theorem Pipe.Fifo.writes (F : pi.Fifo t) (hw : pi.Writes put got pi') : pi'.Fifo (t.add put got) := by
  cases hw with
  | @put ch hfull =>
    refine ⟨?_, by simpa [Traffic.add] using F.nread, ?_⟩
    · simp only [Traffic.add, List.append_nil, F.nwrite, cell_ofNat]
      exact F.ring.push (F.not_full hfull) ch
    · simp [Traffic.add, F.nwrite]
  | get hne =>
    refine ⟨?_, ?_, by simpa [Traffic.add] using F.nwrite⟩
    · simp only [Traffic.add, List.append_nil, F.nread, Pipe.Fifo.at_ofNat]
      exact F.ring.pop (F.not_empty hne)
    · simp [Traffic.add, F.nread]
  | close =>
    simp only [Traffic.add, List.append_nil]
    exact ⟨F.ring, F.nread, F.nwrite⟩

end Counters

/-! ## Recorded runs -/

variable {n : Nat} {H : Type}

/-- What the next step of hart `h` puts into pipe `id`, and what it takes. -/
def Sys.bytes (id : Nat) (s : Sys n H objects) (h : H) : List UInt8 × List UInt8 :=
  match s.at h, s.data (.pipe id) with
  | some (.inside (.pipe id') x), .pipe pi => if id' = id then (pi.puts x, pi.gets id x) else ([], [])
  | _, _ => ([], [])

def stepPipe [DecidableEq H] (id : Nat) (t : Sys n H objects × Traffic) (a : H × Input objects) :
    Outcome (Sys n H objects × Traffic) Panic :=
  match step t.1 a with
  | .next s => .next (s, t.2.add (t.1.bytes id a.1).1 (t.1.bytes id a.1).2)
  | .blocked => .blocked
  | .panic p => .panic p

def pipealloc (page : Fin PIPESIZE → UInt8) : Pipe where
  data := page
  nread := 0
  nwrite := 0
  readopen := true
  writeopen := true

def BootPipe (id : Nat) (t : Sys n H objects × Traffic) : Prop :=
  Boot t.1 ∧ (∃ page, t.1.data (.pipe id) = .pipe (pipealloc page)) ∧ t.2 = ⟨[], []⟩

section Runs

variable [DecidableEq H] {s s' : Sys n H objects} {h : H} {inp : Input objects}

omit [DecidableEq H] in
theorem Does.inside {M : Monitor} {s : Sys n H M} {self : Option (Fin n)} {l : M.L} {x : M.X}
    {m : Move n M} (hm : Does s self (.inside l x) m) : match M.code l x (s.data l) with
    | .write d _ => (m.eff.apply s).data l = d
    | _ => (m.eff.apply s).data l = s.data l := by
  have key : Acts s self (.inside l x) m := by
    cases self with
    | none => exact hm
    | some i =>
      cases hm with
      | acts ha => exact ha
      | wakes hp _ _ _ | away hp _ _ => exact hp.elim
  cases key with
  | write ha => simp [ha, Eff.apply]
  | wake ha | wait ha | check ha | done ha => simp [ha, Eff.apply]

omit [DecidableEq H] in
theorem bytes_of_ne (hat : ∀ x, s.at h ≠ some (.inside (.pipe id) x)) : s.bytes id h = ([], []) := by
  unfold Sys.bytes
  split
  · rename_i id' x pi hx _
    refine if_neg fun he => hat x ?_
    rw [hx, he]
  · rfl

theorem Step.pipe (P : Placed s) (hs : Step s h inp s') (hd : s.data (.pipe id) = .pipe pi) :
    s'.data (.pipe id) = .pipe pi ∧ s.bytes id h = ([], []) ∨
      ∃ pi', s'.data (.pipe id) = .pipe pi' ∧ pi.Writes (s.bytes id h).1 (s.bytes id h).2 pi' := by
  by_cases hat : ∃ x, s.at h = some (.inside (.pipe id) x)
  · obtain ⟨x, hx⟩ := hat
    have hb : s.bytes id h = (pi.puts x, pi.gets id x) := by simp [Sys.bytes, hx, hd]
    rcases hs.hart hx with ⟨h0, -⟩ | ⟨⟨q, hq⟩, -⟩ | ⟨self, m, hm, -, -, ht, -⟩
    · -- interrupts are off while the lock is held
      obtain ⟨self, hheld⟩ := held_at hx
      rw [P.locks.count h, hheld] at h0
      cases h0
    · cases hq
    · have hw := pipeCode_writes id pi x
      have hi := hm.inside
      rw [← ht.data, show objects.code (.pipe id) x (s.data (.pipe id)) = pipeCode id pi x by
        rw [hd]; rfl] at hi
      cases hc : pipeCode id pi x with
      | write d x' =>
        rw [hc] at hw hi
        obtain ⟨pi', rfl, hw⟩ := hw
        refine .inr ⟨pi', hi, ?_⟩
        rw [hb]
        unfold Pipe.gets
        rwa [hc]
      | _ =>
        rw [hc] at hw hi
        refine .inl ⟨hi.trans hd, ?_⟩
        rw [hb, hw]
        unfold Pipe.gets
        rw [hc]
  · refine .inl ⟨?_, bytes_of_ne fun x hx => hat ⟨x, hx⟩⟩
    rcases hs.data (.pipe id) with he | ⟨x, d, x', hx, -⟩
    · rw [he, hd]
    · exact absurd ⟨x, hx⟩ hat

theorem stepPipe_eq {t t' : Sys n H objects × Traffic} {a : H × Input objects}
    (hs : stepPipe id t a = .next t') : step t.1 a = .next t'.1 ∧
      t'.2 = t.2.add (t.1.bytes id a.1).1 (t.1.bytes id a.1).2 := by
  unfold stepPipe at hs
  cases h : step t.1 a <;> rw [h] at hs <;> cases hs
  exact ⟨rfl, rfl⟩

theorem Pipe.Fifo.of_reach {t : Sys n H objects × Traffic}
    (hr : Reach (BootPipe id) (stepPipe id) (fun _ _ => True) t) :
    Placed t.1 ∧ ∃ pi, t.1.data (.pipe id) = .pipe pi ∧ pi.Fifo t.2 := by
  refine hr.invariant (I := fun t => Placed t.1 ∧ ∃ pi, t.1.data (.pipe id) = .pipe pi ∧
    pi.Fifo t.2) ?_ ?_
  · rintro t ⟨hb, ⟨page, hd⟩, ht⟩
    refine ⟨Placed.of_boot hb, _, hd, ?_⟩
    rw [ht]
    exact ⟨Ring.empty page, rfl, rfl⟩
  · rintro t a t' ⟨P, pi, hd, F⟩ - hs
    obtain ⟨hs, ht⟩ := stepPipe_eq hs
    have hstep : Step t.1 a.1 a.2 t'.1 := Step.of_step hs
    refine ⟨P.step hstep, ?_⟩
    rw [ht]
    rcases hstep.pipe P hd with ⟨hd', hb⟩ | ⟨pi', hd', hw⟩
    · refine ⟨pi, hd', ?_⟩
      simpa only [hb, Traffic.add, List.append_nil] using F
    · exact ⟨pi', hd', F.writes hw⟩

end Runs

/-- **A pipe is a bounded queue.** Whatever the other processes do, what has been accepted and not
    removed is as much as the counters are apart, and at most `PIPESIZE`; what has been removed is
    the first part of what has been accepted; and the rest is in the ring, from `nread` on. -/
theorem pipe_bounded_fifo [DecidableEq H] {id : Nat} {t : Sys n H objects × Traffic}
    (hr : Reach (BootPipe id) (stepPipe id) (fun _ _ => True) t) :
    ∃ pi, t.1.data (.pipe id) = .pipe pi ∧
      t.2.accepted.length - t.2.removed.length = (pi.nwrite - pi.nread).toNat ∧
      (pi.nwrite - pi.nread).toNat ≤ PIPESIZE ∧ t.2.removed <+: t.2.accepted ∧
      ∀ k < (pi.nwrite - pi.nread).toNat,
        t.2.accepted[t.2.removed.length + k]? = some (pi.at (pi.nread + UInt32.ofNat k)) := by
  obtain ⟨-, pi, hd, F⟩ := Pipe.Fifo.of_reach hr
  have hle := F.ring.fifo.length_le
  have hroom := F.ring.room
  refine ⟨pi, hd, F.used.symm, ?_, F.ring.fifo, fun k hk => ?_⟩
  · rw [F.used]
    omega
  · rw [F.used] at hk
    have hlt : t.2.removed.length + k < t.2.accepted.length := by omega
    rw [List.getElem?_eq_getElem hlt, ← F.ring.held _ hlt (Nat.le_add_right _ _), F.nread,
      ← UInt32.ofNat_add, Pipe.Fifo.at_ofNat]

/-- Three bytes go in and two come out. -/
theorem pipe_bounded_fifo_three : ∃ t : Sys 1 Unit objects × Traffic,
    Reach (BootPipe 0) (stepPipe 0) (fun _ _ => True) t ∧ t.2.accepted = [7, 8, 9] ∧
      ∃ pi, t.1.data (.pipe 0) = .pipe pi ∧ (pi.nwrite - pi.nread).toNat = 1 ∧
        [7, 8] <+: t.2.accepted := by
  have hrun : (exec (stepPipe 0) (fun _ _ => True)
      ((Sys.boot objInit 0 : Sys 1 Unit objects), ⟨[], []⟩)
      (onHart () ([.go, .go, .call (ObjLock.pipe 0) (Local.pipewrite [some 7, some 8, some 9] 0)] ++
        List.replicate 18 .go ++ [.call (ObjLock.pipe 0) (Local.piperead 2 2)] ++
        List.replicate 8 .go))).any
      (fun t => t.2.accepted = [7, 8, 9] ∧ t.2.removed = [7, 8]) = true := by
    decide +kernel
  have hboot : BootPipe 0 ((Sys.boot objInit 0 : Sys 1 Unit objects), ⟨[], []⟩) :=
    ⟨Sys.boot_spec _ _, ⟨_, rfl⟩, rfl⟩
  obtain ⟨t, hr, hq⟩ := Reach.exec_any hboot hrun
  obtain ⟨hacc, hrem⟩ := of_decide_eq_true hq
  obtain ⟨pi, hd, hlen, -, hfifo, -⟩ := pipe_bounded_fifo hr
  refine ⟨t, hr, hacc, pi, hd, ?_, hrem ▸ hfifo⟩
  rw [← hlen, hacc, hrem]
  rfl

end ZeptOS.Sched
