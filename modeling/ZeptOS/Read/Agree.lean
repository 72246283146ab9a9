import ZeptOS.Fs.Files
import ZeptOS.Read.Fileread

/-!
# The same functions in the other models

`piperead` and `readi` are each in two models. `Sched` has the pipe as code under its lock, which others
take while the reader sleeps, and `Fs` has `readi` as operations on buffers and inodes; `Read` has what a
call stores and returns. What is proved of a read is about the code only if these are the same functions,
and that is shown here.

For a pipe the agreement is complete: from where the wait is over, the steps of `Sched` lead to the pipe and
the result of `Read`, whatever part of the destination can be written.

For a file it is shown where every byte can be stored and every block is there. `Fs` does not say *where* a
failed copy has stopped, as nothing in the file system depends on it, and a block that is missing below the
size of a file is one that its invariant excludes.
-/

namespace ZeptOS.Read

open Console (Output)
open Sched (Pipe Local pipeCode pipereadCopy)

section Pipes

inductive Inside (id : Nat) : Pipe → Local → Pipe → Local → Prop
  | refl {pi : Pipe} {x : Local} : Inside id pi x pi x
  | write {pi pi' pi'' : Pipe} {x x' x'' : Local} (h : pipeCode id pi x = .write (.pipe pi') x')
      (rest : Inside id pi' x' pi'' x'') : Inside id pi x pi'' x''

variable {ok : UInt64 → Bool} {addr : UInt64} {id room : Nat} {n : Int}

theorem pipereadLoop_inside (hyes : ∀ j < n.toNat, j < room → ok (addr + UInt64.ofNat j) = true)
    (hno : room < n.toNat → ok (addr + UInt64.ofNat room) = false) : ∀ {k i : Nat} {pi : Pipe} {x : Local},
    i + k = n.toNat → i ≤ room → pipeCode id pi x = pipereadCopy id pi n room i →
    ∃ x' r, (pipereadLoop ok addr k i pi).2.result = some r ∧ Inside id pi x (pipereadLoop ok addr k i pi).1 x' ∧
      pipeCode id (pipereadLoop ok addr k i pi).1 x' = .wake (.nwrite id) (.ret r) := by
  intro k
  induction k with
  | zero =>
    intro i pi x hk _ hx
    refine ⟨x, i, rfl, .refl, hx.trans ?_⟩
    exact if_neg (by omega)
  | succ k ih =>
    intro i pi x hk hroom hx
    have hlt : (i : Int) < n := by omega
    rw [pipereadLoop]
    unfold pipereadCopy at hx
    rw [if_pos hlt] at hx
    by_cases hempty : pi.nread = pi.nwrite
    · rw [if_pos hempty] at hx ⊢
      exact ⟨x, i, rfl, .refl, hx⟩
    · rw [if_neg hempty] at hx ⊢
      dsimp only at hx ⊢
      rw [copyout_cons]
      by_cases hi : i < room
      · rw [if_pos hi] at hx
        rw [if_pos (hyes i (by omega) hi)]
        obtain ⟨x', r, hr, hin, hret⟩ := @ih (i + 1) { pi with nread := pi.nread + 1 }
          (.pipereadCopy n room (i + 1) (pi.at pi.nread)) (by omega) hi rfl
        exact ⟨x', r, hr, .write hx hin, hret⟩
      · obtain rfl : i = room := by omega
        rw [if_neg hi] at hx
        rw [if_neg (by rw [hno (by omega)]; exact Bool.false_ne_true)]
        exact ⟨_, i, rfl, .write hx .refl, rfl⟩

/-- **This is the `piperead` of the scheduler's pipes**, from where its wait is over to where it wakes the
    writers up, when `copyout` finds memory for `room` bytes. -/
theorem piperead_inside (pi : Pipe) (hgo : ¬(pi.nread = pi.nwrite ∧ pi.writeopen = true))
    (hyes : ∀ j < n.toNat, j < room → ok (addr + UInt64.ofNat j) = true)
    (hno : room < n.toNat → ok (addr + UInt64.ofNat room) = false) :
    ∃ x' r, (piperead ok addr n pi).2.result = some r ∧
      Inside id pi (.piperead n room) (piperead ok addr n pi).1 x' ∧
      pipeCode id (piperead ok addr n pi).1 x' = .wake (.nwrite id) (.ret r) :=
  pipereadLoop_inside hyes hno (Nat.zero_add _) (Nat.zero_le _) (if_neg hgo)

end Pipes

section Files

variable {ip : Inode} {dst : UInt64}

theorem copyout_all (dst : UInt64) (src : List UInt8) : (copyout (fun _ => true) dst src).2 = true := by
  induction src generalizing dst with
  | nil => rfl
  | cons c src ih => exact ih _

theorem copyout_append (dst : UInt64) (a b : List UInt8) : (copyout (fun _ => true) dst (a ++ b)).1 =
    (copyout (fun _ => true) dst a).1 ++ (copyout (fun _ => true) (dst + UInt64.ofNat a.length) b).1 := by
  induction a generalizing dst with
  | nil => simp [copyout]
  | cons c a ih =>
    rw [List.cons_append, copyout_cons, copyout_cons, if_pos rfl, if_pos rfl, ih, List.length_cons,
      Nat.add_comm a.length, ← add_ofNat]
    rfl

theorem readiLoop_all (hmap : ∀ b, ip.mapped b = true) {n : Nat} : ∀ {k tot off : Nat} {dst : UInt64}, tot ≤ n →
    n ≤ tot + k → readiLoop (fun _ => true) ip n k tot off dst =
      ⟨(copyout (fun _ => true) dst (Lib.Bytes.slice ip.data off (n - tot))).1, some n⟩ := by
  intro k
  induction k with
  | zero =>
    intro tot off dst h₁ h₂
    obtain rfl : tot = n := by omega
    rw [Nat.sub_self]
    rfl
  | succ k ih =>
    intro tot off dst h₁ h₂
    rw [readiLoop]
    by_cases hlt : tot < n
    · have hmod := mod_BSIZE_lt off
      rw [if_pos hlt, if_neg (by rw [hmap]; decide)]
      dsimp only
      generalize hm : min (n - tot) (BSIZE - off % BSIZE) = m
      have hsplit : Lib.Bytes.slice ip.data off (n - tot) =
          Lib.Bytes.slice ip.data off m ++ Lib.Bytes.slice ip.data (off + m) (n - (tot + m)) := by
        rw [Lib.Bytes.slice_append]
        congr 1
        omega
      rw [ih (by omega) (by omega), hsplit, copyout_append, Lib.Bytes.length_slice]
      have hall := copyout_all dst (Lib.Bytes.slice ip.data off m)
      unfold Lib.Bytes.slice at hall ⊢
      generalize copyout (fun _ => true) dst _ = c at hall ⊢
      obtain ⟨st, all⟩ := c
      cases hall
      rfl
    · rw [if_neg hlt]
      obtain rfl : tot = n := by omega
      rw [Nat.sub_self]
      rfl

/-- **This is the `readi` of the file system**, on a file that has its blocks, where everything can be
    stored: what that one has copied is stored here. -/
theorem readi_agrees {sb : Fs.Superblock} {s : Fs.State} {i : Fs.Slot} (h : Fs.Synced sb s)
    (hr : 0 < (s.ident i).ref) (hv : (s.node i).valid = true) (hsize : ip.size = (s.node i).d.size)
    (hdata : ip.data = (s.vnode i).bytes) (hmap : ∀ b, ip.mapped b = true) (E : Fs.Env) (p : Fs.Proc)
    (dst : UInt64) {off n : Nat} (hoff : off < 2 ^ 32) (hn : n < 2 ^ 32) :
    Fs.Does E p (Fs.readi sb i (.user dst.toNat) off n) (fun r _ => r.1 = -1 ∨
      readi (fun _ => true) ip dst off n = ⟨(copyout (fun _ => true) dst r.2).1, some r.1⟩) s := by
  refine (h.readsAs hr hv E p _ off n hoff hn).mono ?_
  rintro r _ ⟨-, rfl | hfail⟩
  · right
    have hle := ip.size_le
    have hmax : MAXFILE * BSIZE < 2 ^ 32 := by decide
    rw [← Fs.readLen_eq_clip hoff hn, ← hsize, ← hdata]
    unfold readi Fs.readLen
    by_cases hout : off > ip.size ∨ (off + n) % 2 ^ 32 < off
    · rw [if_pos hout, if_pos hout]
      rfl
    · have hmin : (if (off + n) % 2 ^ 32 > ip.size then ip.size - off else n) = min n (ip.size - off) := by
        split <;> omega
      rw [if_neg hout, if_neg hout, hmin]
      exact readiLoop_all hmap (Nat.zero_le _) (Nat.zero_add _).ge
  · exact .inl hfail.1

end Files

end ZeptOS.Read
