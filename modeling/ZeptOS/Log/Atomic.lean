import ZeptOS.Log.Crash

/-!
# Crash atomicity of the log

The invariant of the module before says what the disk means at every moment. What is
left is to say it of whole runs, and to say of the *history* that a commit is a union
of complete operations.

That second half is a property of the admission test alone. `end_op` commits when the
last outstanding operation ends, and `begin_op` sleeps while `committing` is set, so no
operation is running when the header is written: whatever an operation logged, it
logged into the transaction that its own `end_op` is part of.
-/

namespace ZeptOS.Log.Machine

open Lib LogHeader

variable {b op : Nat} {a : Act}

section
variable {d₀ : Nat → Block} {m : Machine}

/-! ## Which commit an operation is in -/

def Apart (us vs : List Upd) : Prop := ∀ u ∈ us, ∀ v ∈ vs, u.op ≠ v.op

/-- An operation still running has nothing committed and nothing lost, and so whatever
    it logs stays together in the transaction it runs in. -/
structure Hist (m : Machine) : Prop where
  opsLt : ∀ o ∈ m.ops, o.id < m.nextOp
  doneLt : ∀ u ∈ m.committed.flatten ++ m.lost, u.op < m.nextOp
  curLt : ∀ u ∈ m.cur, u.op < m.nextOp
  running : ∀ o ∈ m.ops, ∀ u ∈ m.committed.flatten ++ m.lost, u.op ≠ o.id
  commits : m.committed.Pairwise Apart
  rest : ∀ us ∈ m.committed, Apart us (m.cur ++ m.lost)
  curLost : Apart m.cur m.lost

variable {m' : Machine}

theorem Hist.logged (h : Hist m) {v : Block} (ha : m.active op = true) {ops : List Op}
    (hops : ∀ o ∈ ops, ∃ o' ∈ m.ops, o'.id = o.id)
    (hm : m'.ops = ops ∧ m'.nextOp = m.nextOp ∧ m'.committed = m.committed ∧ m'.lost = m.lost ∧
      m'.cur = m.cur ++ [⟨op, b, v⟩]) : Hist m' := by
  obtain ⟨h1, h2, h3, h4, h5⟩ := hm
  obtain ⟨o, ho, hoid⟩ := List.any_eq_true.mp ha
  rw [beq_iff_eq] at hoid
  have hfresh : ∀ u ∈ m.committed.flatten ++ m.lost, u.op ≠ op :=
    fun u hu => hoid ▸ h.running o ho u hu
  refine ⟨?_, ?_, ?_, ?_, ?_, ?_, ?_⟩
  · intro o' ho'
    obtain ⟨o'', hm'', he⟩ := hops o' (h1 ▸ ho')
    rw [h2, ← he]
    exact h.opsLt o'' hm''
  · rw [h2, h3, h4]
    exact h.doneLt
  · rw [h2, h5]
    intro u hu
    rcases List.mem_append.mp hu with hu | hu
    · exact h.curLt u hu
    · rw [List.mem_singleton] at hu
      subst hu
      exact hoid ▸ h.opsLt o ho
  · rw [h3, h4]
    intro o' ho' u hu
    obtain ⟨o'', hm'', he⟩ := hops o' (h1 ▸ ho')
    rw [← he]
    exact h.running o'' hm'' u hu
  · rw [h3]
    exact h.commits
  · rw [h3, h4, h5]
    intro us hus u hu w hw
    simp only [List.mem_append, List.mem_singleton] at hw
    rcases hw with (hw | rfl) | hw
    · exact h.rest us hus u hu w (List.mem_append_left _ hw)
    · exact hfresh u (List.mem_append_left _ (List.mem_flatten_of_mem hus hu))
    · exact h.rest us hus u hu w (List.mem_append_right _ hw)
  · rw [h4, h5]
    intro u hu w hw
    rcases List.mem_append.mp hu with hu | hu
    · exact h.curLost u hu w hw
    · rw [List.mem_singleton] at hu
      subst hu
      exact fun he => hfresh w (List.mem_append_right _ hw) he.symm

theorem Hist.same (h : Hist m) (hops : ∀ o ∈ m'.ops, o ∈ m.ops)
    (h2 : m'.nextOp = m.nextOp) (h3 : m'.committed = m.committed) (h4 : m'.lost = m.lost)
    (h5 : m'.cur = m.cur) : Hist m' := by
  refine ⟨?_, ?_, ?_, ?_, ?_, ?_, ?_⟩
  · intro o ho; rw [h2]; exact h.opsLt o (hops o ho)
  · rw [h2, h3, h4]; exact h.doneLt
  · rw [h2, h5]; exact h.curLt
  · intro o ho; rw [h3, h4]; exact h.running o (hops o ho)
  · rw [h3]; exact h.commits
  · rw [h3, h4, h5]; exact h.rest
  · rw [h4, h5]; exact h.curLost

theorem Hist.commit (h : Hist m) (hops : m.ops = []) (h1 : m'.ops = m.ops)
    (h2 : m'.nextOp = m.nextOp) (h3 : m'.committed = m.committed ++ [m.cur])
    (h4 : m'.lost = m.lost) (h5 : m'.cur = []) : Hist m' := by
  refine ⟨?_, ?_, ?_, ?_, ?_, ?_, ?_⟩
  · intro o ho; rw [h1, hops] at ho; simp at ho
  · rw [h2, h3, h4]
    intro u hu
    simp only [List.flatten_append, List.flatten_singleton, List.mem_append] at hu
    rcases hu with (hu | hu) | hu
    · exact h.doneLt u (List.mem_append_left _ hu)
    · exact h.curLt u hu
    · exact h.doneLt u (List.mem_append_right _ hu)
  · rw [h5]; simp
  · intro o ho; rw [h1, hops] at ho; simp at ho
  · rw [h3, List.pairwise_append]
    refine ⟨h.commits, List.pairwise_singleton _ _, ?_⟩
    intro us hus vs hvs
    rw [List.mem_singleton] at hvs
    subst hvs
    exact fun u hu w hw => h.rest us hus u hu w (List.mem_append_left _ hw)
  · rw [h3, h4, h5, List.nil_append]
    intro us hus
    rcases List.mem_append.mp hus with hus | hus
    · exact fun u hu w hw => h.rest us hus u hu w (List.mem_append_right _ hw)
    · rw [List.mem_singleton] at hus
      subst hus
      exact h.curLost
  · rw [h5]
    intro u hu
    simp at hu

theorem Hist.crash (h : Hist m) : Hist m.crash := by
  refine ⟨?_, ?_, ?_, ?_, h.commits, ?_, ?_⟩
  · intro o ho; simp [Machine.crash] at ho
  · intro u hu
    simp only [Machine.crash, List.mem_append] at hu
    rcases hu with hu | hu | hu
    · exact h.doneLt u (List.mem_append_left _ hu)
    · exact h.doneLt u (List.mem_append_right _ hu)
    · exact h.curLt u hu
  · intro u hu; simp [Machine.crash] at hu
  · intro o ho; simp [Machine.crash] at ho
  · intro us hus u hu w hw
    simp only [Machine.crash, List.nil_append, List.mem_append] at hw
    refine h.rest us hus u hu w (List.mem_append.mpr ?_)
    exact hw.symm
  · intro u hu; simp [Machine.crash] at hu

theorem Hist.beginOp (h : Hist m) (hs : m.beginOp = .next m') : Hist m' := by
  unfold Machine.beginOp at hs
  split at hs
  · cases hs
    refine ⟨?_, ?_, ?_, ?_, h.commits, h.rest, h.curLost⟩
    · intro o ho
      rcases List.mem_cons.mp ho with rfl | ho
      · exact Nat.lt_succ_self _
      · exact Nat.lt_succ_of_lt (h.opsLt o ho)
    · intro u hu; exact Nat.lt_succ_of_lt (h.doneLt u hu)
    · intro u hu; exact Nat.lt_succ_of_lt (h.curLt u hu)
    · intro o ho u hu
      rcases List.mem_cons.mp ho with rfl | ho
      · exact Nat.ne_of_lt (h.doneLt u hu)
      · exact h.running o ho u hu
  · cases hs

theorem Hist.tick (h : Hist m) (hctl : Ctl m) (hs : m.tick = .next m') : Hist m' := by
  unfold Machine.tick at hs
  cases hpc : m.pc with
  | idle => rw [hpc] at hs; cases hs
  | writeHead =>
    rw [hpc] at hs
    cases hs
    exact h.commit (hctl.quiet (by rw [hpc]; simp)) rfl rfl rfl rfl rfl
  | writeLog tail | install tail | recInstall tail =>
    rw [hpc] at hs
    simp only at hs
    split at hs <;> cases hs <;> exact h.same (fun _ ho => ho) rfl rfl rfl rfl
  | clearHead | finish | recRead | recClear =>
    rw [hpc] at hs
    cases hs
    exact h.same (fun _ ho => ho) rfl rfl rfl rfl

theorem Hist.logWrite (h : Hist m) (hs : m.logWrite op b = .next m') : Hist m' := by
  unfold Machine.logWrite at hs
  split at hs
  · rename_i hc
    split at hs
    · cases hs
    split at hs
    · cases hs
    cases hs
    refine h.logged hc.1 (fun o ho => ?_) ⟨rfl, rfl, rfl, rfl, rfl⟩
    obtain ⟨o', ho', rfl⟩ := List.mem_map.mp ho
    refine ⟨o', ho', ?_⟩
    split <;> rfl
  · cases hs

theorem Hist.endOp (h : Hist m) (hs : m.endOp op = .next m') : Hist m' := by
  have hsub : ∀ o ∈ m.ops.filter (·.id != op), o ∈ m.ops := fun o ho => (List.mem_filter.mp ho).1
  unfold Machine.endOp at hs
  split at hs
  · split at hs
    · cases hs
    split at hs <;> cases hs <;> exact h.same hsub rfl rfl rfl rfl
  · cases hs

theorem Hist.step (h : Hist m) (hctl : Ctl m) (hs : m.step a = .next m') : Hist m' := by
  cases a with
  | beginOp => exact h.beginOp hs
  | logWrite op b => exact h.logWrite hs
  | endOp op => exact h.endOp hs
  | tick => exact h.tick hctl hs
  | crash => cases hs; exact h.crash
  | bread op b | modify op b data | brelse op b | load b | evict b =>
    simp only [Machine.step] at hs
    split at hs <;> cases hs
    exact h.same (fun _ ho => ho) rfl rfl rfl rfl

theorem hist_boot (logstart nlog : Nat) : Hist (boot d₀ logstart nlog) := by
  refine ⟨?_, ?_, ?_, ?_, List.Pairwise.nil, ?_, ?_⟩ <;> intro x hx <;> simp [boot] at hx

/-! ## Whole runs -/

theorem Inv.step (h : Inv d₀ m) (hist : Hist m) (hok : m.LogsChanges a) (hs : m.step a = .next m') :
    Inv d₀ m' := by
  cases a with
  | beginOp => exact h.beginOp hist.opsLt hs
  | logWrite op b => exact h.logWrite hs
  | endOp op => exact h.endOp hs
  | tick => exact h.tick hs
  | crash => cases hs; exact h.crash
  | bread op b =>
    simp only [Machine.step] at hs
    split at hs <;> cases hs
    rename_i hc
    obtain ⟨hact, -, hb, hlt⟩ := hc
    have hidle := h.ctl.idle_of_active hact
    have hbr := h.bread (by rw [hidle]; simp) (b := b) (.inl (by rw [hidle]; rfl))
    exact hbr.lock hact hb hlt (by simp [Machine.bread])
  | modify op b data =>
    simp only [Machine.step] at hs
    split at hs <;> cases hs
    rename_i hl
    exact h.modify hl data
  | brelse op b =>
    simp only [Machine.step] at hs
    split at hs <;> cases hs
    exact h.brelse hok
  | load b =>
    simp only [Machine.step] at hs
    split at hs <;> cases hs
    rename_i hc
    refine h.bread (fun hpc => ?_) (.inl hc.1)
    rw [hpc] at hc
    exact absurd hc.1 (by simp [Pc.recovering])
  | evict b =>
    simp only [Machine.step] at hs
    split at hs <;> cases hs
    rename_i hc
    exact h.evict hc.1 hc.2

theorem area_step (hs : m.step a = .next m') :
    m'.log.start = m.log.start ∧ m'.log.size = m.log.size := by
  cases a <;> simp only [Machine.step, Machine.tick, Machine.logWrite, Machine.endOp, Machine.beginOp] at hs <;>
    (repeat' split at hs) <;> cases hs <;> exact ⟨rfl, rfl⟩

theorem reach_inv {logstart nlog : Nat} (hn : 0 < nlog)
    (h0 : headCount (d₀ logstart) = 0) (hr : ReachOf d₀ logstart nlog LogsChanges m) :
    Inv d₀ m ∧ Hist m ∧ m.log.start = logstart ∧ m.log.size = nlog := by
  refine Reach.invariant (I := fun m => Inv d₀ m ∧ Hist m ∧ m.log.start = logstart ∧
    m.log.size = nlog) ?_ ?_ hr
  · rintro s rfl
    exact ⟨inv_boot hn h0, hist_boot logstart nlog, rfl, rfl⟩
  · rintro s a s' ⟨hi, hh, hst, hsz⟩ hok hs
    obtain ⟨ha, hb⟩ := area_step hs
    exact ⟨hi.step hh hok hs, hh.step hi.ctl hs, ha.trans hst, hb.trans hsz⟩

end

/-- **Crash atomicity.** From a disk whose log header is empty, in any run of any number
    of concurrent operations that log what they change, with crashes at any points,
    recovery included: when a recovery completes, every block outside the log area holds
    what the commits so far put there, in order, and nothing else, where a commit counts
    from the moment its header is on the disk. And the commits are unions of whole
    operations: no operation has updates in two of them, or in one of them and outside it. -/
theorem recovery_applies_exactly_the_commits {d₀ : Nat → Block} {logstart nlog : Nat} (hn : 0 < nlog)
    (h0 : headCount (d₀ logstart) = 0) {m : Machine} (hr : ReachOf d₀ logstart nlog LogsChanges m) :
    (∀ m', m.pc = .recClear → m.step .tick = .next m' →
      ∀ b, ¬ (logstart ≤ b ∧ b < logstart + nlog) →
        m'.disk b = replay (writes m'.committed.flatten) d₀ b) ∧
    m.committed.Pairwise Apart ∧ ∀ us ∈ m.committed, Apart us (m.cur ++ m.lost) := by
  obtain ⟨hi, hh, rfl, rfl⟩ := reach_inv hn h0 hr
  refine ⟨?_, hh.commits, hh.rest⟩
  intro m' hpc hs b hb
  have hph := hi.phase
  unfold Phase at hph
  rw [hpc] at hph
  simp only [Machine.step, Machine.tick, hpc] at hs
  cases hs
  have hne : b ≠ m.log.start := ne_of_inArea (inArea_start hi.toCore) hb
  rw [show (m.writeHead).disk b = m.disk b from Function.update_of_ne hne _ _]
  exact hph.2.2 b hb

/-- The power goes right after the header of an operation on block 100 was written,
    again during the recovery, and a third time before a second operation ends. -/
def crashTwice : List Act :=
  [.tick, .tick, .tick,
   .beginOp, .bread 0 100, .modify 0 100 (Bytes.fill 7), .logWrite 0 100, .brelse 0 100, .endOp 0,
   .tick, .tick, .tick, .crash, .tick, .tick, .crash, .tick, .tick, .tick, .tick,
   .beginOp, .bread 1 101, .modify 1 101 (Bytes.fill 9), .logWrite 1 101, .crash, .tick, .tick]

theorem recovery_applies_exactly_the_commits_crashTwice :
    ∃ m m', ReachOf (fun _ => Bytes.fill 0) 2 30 LogsChanges m ∧
      m.pc = .recClear ∧ m.step .tick = .next m' ∧ m'.committed.length = 1 ∧ m'.lost.length = 1 ∧
      m'.disk 100 = replay (writes m'.committed.flatten) (fun _ => Bytes.fill 0) 100 := by
  obtain ⟨m, hm⟩ : ∃ m, exec step LogsChanges (boot (fun _ => Bytes.fill 0) 2 30) crashTwice = some m :=
    ⟨_, rfl⟩
  have hr : ReachOf (fun _ => Bytes.fill 0) 2 30 LogsChanges m :=
    Reach.exec (.start rfl) hm
  have hpc : m.pc = .recClear := by cases hm; rfl
  have hs : m.step .tick = .next { m.writeHead with pc := .idle } := by
    simp only [Machine.step, Machine.tick, hpc]
  refine ⟨m, _, hr, hpc, hs, ?_, ?_, ?_⟩
  · cases hm; rfl
  · cases hm; rfl
  · exact (recovery_applies_exactly_the_commits (by decide) (by decide) hr).1 _ hpc hs 100 (by decide)

end ZeptOS.Log.Machine
