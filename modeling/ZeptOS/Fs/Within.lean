import ZeptOS.Fs.Run
import ZeptOS.Fs.Seq

/-!
# Calls that leave the open files alone

`exec` looks up a path and reads a file, and for that takes and drops references to inodes and nothing
else: it keeps to the rules of code that has no business with the tables of files, pipes and processes
(`within`). Its ledger is the same at the end, so each inode is then referenced as often as before, and
it does not matter where in their calls the other processes are (`exec_drops_reference`).

What `exec` does to the process itself is not here but in `Mem`; how that goes is among the answers
that `anyEnd` leaves open.
-/

namespace ZeptOS.Fs

open Lib Lib.Code

variable {p : Proc} {s : State}

/-- The rules for code that uses no other operations than these. -/
def within : Rules sig Ledger where
  allow g o := o.Within ∧ (own true).allow g o
  step := Ledger.step

instance : Owning within := ⟨true, fun hw hn hg => ⟨hw, hn, hg⟩, id⟩

/-! ## Running alone -/

def anyEnd : Env := ⟨fun _ => True, fun _ _ _ => True⟩

theorem same_of_within {ω : Oracle} {s' : State} {o : Op} {r : o.Ans} (ho : o.Within)
    (h : perform ω p s o = .ok (r, s')) : Same s s' := by
  cases o with
  | panic e => cases h
  | filealloc | filedup | filecloseRef | setFile | setOff | pipeKalloc | pipeclose | setOfile | setCwd
  | allocproc | childOfile | childCwd | runnable | zombie => exact ho.elim
  | _ =>
    simp only [perform] at h
    (repeat' split at h) <;> first
      | (obtain ⟨-, rfl⟩ := ok_inj h; exact ⟨rfl, rfl, rfl, rfl, rfl⟩)
      | cases h

section

variable {G : Proc → Ledger}

theorem Inv.nothing_of_off (h : Inv s G) {u : Proc} (ho : (G u).Off) : (G u).1 = 0 := by
  rcases ho with ho | ho
  · exact (h.procs.unused u ((h.procs.pstate u).symm.trans ho)).owed
  · exact (h.procs.used u ((h.procs.pstate u).symm.trans ho)).1

/-- **Code that keeps to the rules, run alone**: the books are right at the end, and the other
processes have what they had. -/
theorem Inv.does {α : Type} {x : FsM α} {Q : α → Ledger → Prop} (h : Inv s G) (hoff : ¬(G p).Off)
    (ho : x.Obeys within Q (G p)) :
    Does anyEnd p x (fun a s' => Same s s' ∧ ∃ G', Inv s' G' ∧ Q a (G' p) ∧
      ∀ u, u ≠ p → (G' u).1 = (G u).1) s := by
  induction x generalizing s G with
  | ret a => exact ⟨.refl s, G, h, ho, fun _ _ => rfl⟩
  | op o k ih =>
    refine ⟨fun _ _ _ _ => trivial, ?_⟩
    rintro r s' ⟨ω, -, he⟩
    have hsame := same_of_within ho.1.1 he
    obtain ⟨G', hi, hstep, hoff', hothers⟩ := h.step hoff ho.1.2 he
    refine (ih r hi hoff' (ho.2 r _ hstep)).mono ?_
    rintro a s'' ⟨hsame', G'', hi', hq, hrest⟩
    refine ⟨hsame.trans hsame', G'', hi', hq, fun u hu => (hrest u hu).trans ?_⟩
    rcases hothers u hu with heq | ⟨hof, -⟩
    · rw [heq]
    · have hof' : (G' u).Off := by
        unfold Ledger.Off
        rw [hi.procs.pstate, hsame.pstate, ← h.procs.pstate]
        exact hof
      rw [hi.nothing_of_off hof', h.nothing_of_off hof]

/-- **What `exec` leaves of the file system's tables**: the current directory and the open files are
what they were, and each inode is referenced as often. -/
theorem exec_drops_reference {sb : Superblock} {disk : Nat → Block}
    {c : Machine.Config sig Proc State Call Int} (h : (system sb).Reach (boot disk) c)
    (hp : c.thread p = none) (hl : c.state.pstate p = .live) (path : List UInt8) (argc : Nat) :
    Does anyEnd p (exec sb path argc) (fun _ s' => s'.cwd p = c.state.cwd p ∧
      s'.ofile p = c.state.ofile p ∧ ∀ ip, (s'.ident ip).ref = (c.state.ident ip).ref) c.state := by
  obtain ⟨G, hG⟩ := books h
  have hinv : Inv c.state G := hG.inv
  have hrest : (G p).Rest := by
    have hk := hG.keeps p
    rw [hp] at hk
    exact hk
  obtain ⟨T, e, hGp⟩ : ∃ T e, G p = (T, e) := ⟨_, _, rfl⟩
  have hlive : e.pstate = .live := by
    have := hinv.procs.pstate p
    rw [hGp, hl] at this
    exact this
  have hset : Settled T e := by
    rw [hGp] at hrest
    simpa only [Ledger.Rest, hlive] using hrest
  have hoff : ¬(G p).Off := by
    rw [hGp]
    simp [Ledger.Off, hlive]
  obtain ⟨ip, hip⟩ := Option.ne_none_iff_exists'.mp hset.cwd
  have howed : T = {.iref ip} + fileRefs e.ofile := by
    rw [hset.owed, Private.owed, hip, inodeRef]
    exact add_comm _ _
  -- the other references of the process are beside those that `exec` needs
  have hobeys : (exec sb path argc).Obeys within (fun _ g => g = (T, e)) (G p) := by
    rw [hGp, howed]
    refine ((exec_spends sb hip path argc).frame (quiet_fileRefs _)).obeys.mono _ ?_
    rintro _ ⟨T', e'⟩ ⟨T₁, h1, rfl, rfl⟩
    rw [show T' = _ from h1]
  refine (hinv.does hoff hobeys).mono ?_
  rintro _ s' ⟨hsame, G', hinv', hGp', hothers⟩
  refine ⟨congrFun hsame.cwd p, congrFun hsame.ofile p, fun ip => ?_⟩
  have htotal : total G' (.iref ip) = total G (.iref ip) := by
    refine Finset.sum_congr rfl fun u _ => ?_
    by_cases hu : u = p
    · rw [hu, hGp', hGp]
    · rw [hothers u hu]
  rw [hinv'.books.iref, hinv.books.iref, htotal, hsame.slots]

end

end ZeptOS.Fs
