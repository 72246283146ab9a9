import Mathlib.Algebra.Order.BigOperators.Group.List
import Mathlib.Data.List.Dedup
import ZeptOS.Log.Atomic

/-!
# What `begin_op` reserves

`begin_op` admits an operation when `lh.n + (outstanding + 1) * MAXOPBLOCKS` fits into
`LOGSIZE`. The log area `mkfs` lays out has `LOGSIZE` blocks and the first of them is
the header, so one block less is there to be filled; and `log_write` tests for room
*before* it looks whether the block is logged already, so it wants a block of room even
where it will use none. The two together leave `log.size - 2` places an operation can
count on, and the admission test counts on two more than that.

`demand` is what the running operations may still need together with what they have
used, and `Reserved` is the admission test that would suffice.
-/

namespace ZeptOS.Log

open Lib LogHeader

variable {b op : Nat} {m : Machine} {a : Act} {d₀ : Nat → Block}

def Op.left (o : Op) : Nat := MAXOPBLOCKS - o.wrote.dedup.length

variable {m' : Machine}

namespace Machine

/-- The log entries used, and those the running operations may still ask for. -/
def demand (m : Machine) : Nat := m.log.lh.n + (m.ops.map Op.left).sum

/-- An operation logs what it changes, and at most `MAXOPBLOCKS` distinct blocks. -/
def Disciplined (m : Machine) : Act → Prop
  | .logWrite op b => ∀ o ∈ m.ops, o.id = op → (b :: o.wrote).dedup.length ≤ MAXOPBLOCKS
  | a => m.LogsChanges a

instance (m : Machine) (a : Act) : Decidable (m.Disciplined a) :=
  match a with
  | .logWrite op b => inferInstanceAs
      (Decidable (∀ o ∈ m.ops, o.id = op → (b :: o.wrote).dedup.length ≤ MAXOPBLOCKS))
  | .brelse op b => inferInstanceAs (Decidable (m.LogsChanges (.brelse op b)))
  | .beginOp | .bread .. | .modify .. | .endOp _ | .load _ | .evict _ | .tick
  | .crash => .isTrue trivial

theorem Disciplined.logsChanges (h : m.Disciplined a) : m.LogsChanges a := by
  cases a with
  | logWrite => trivial
  | _ => exact h

/-- An operation begins only where the log has room for all it may need. -/
def Reserved (m : Machine) : Act → Prop
  | .beginOp => m.demand + MAXOPBLOCKS ≤ m.log.size - 2
  | _ => True

instance (m : Machine) (a : Act) : Decidable (m.Reserved a) :=
  match a with
  | .beginOp => inferInstanceAs (Decidable (m.demand + MAXOPBLOCKS ≤ m.log.size - 2))
  | .logWrite .. | .bread .. | .modify .. | .brelse .. | .endOp _ | .load _ | .evict _ | .tick
  | .crash => .isTrue trivial

structure Room (m : Machine) : Prop where
  fits : m.demand ≤ m.log.size - 2
  wrote : ∀ o ∈ m.ops, ∀ b ∈ o.wrote, m.log.lh.Mem b

theorem Room.of_quiet (hops : m.ops = []) (hn : m.log.lh.n ≤ m.log.size - 2) : Room m := by
  refine ⟨?_, ?_⟩
  · unfold demand
    rw [hops]
    simpa using hn
  · rw [hops]
    intro o ho
    simp at ho

theorem Room.lh_le (h : Room m) : m.log.lh.n ≤ m.log.size - 2 :=
  Nat.le_trans (Nat.le_add_right _ _) h.fits

theorem Room.beginOp (h : Room m) (hok : m.Reserved .beginOp)
    (hs : m.beginOp = .next m') : Room m' := by
  unfold Machine.beginOp at hs
  split at hs <;> cases hs
  refine ⟨?_, ?_⟩
  · have hok : m.demand + MAXOPBLOCKS ≤ m.log.size - 2 := hok
    unfold demand at hok ⊢
    simp only [List.map_cons, List.sum_cons, Op.left, List.dedup_nil, List.length_nil] at hok ⊢
    omega
  · intro o ho b hb
    rcases List.mem_cons.mp ho with rfl | ho
    · simp at hb
    · exact h.wrote o ho b hb

theorem sum_left_logWrite {ops : List Op} (hids : (ops.map (·.id)).Nodup) {o : Op} (ho : o ∈ ops)
    (hoid : o.id = op) :
    ((ops.map fun o => if o.id = op then { o with wrote := b :: o.wrote } else o).map Op.left).sum
        + o.left
      = (ops.map Op.left).sum + Op.left { o with wrote := b :: o.wrote } := by
  induction ops with
  | nil => simp at ho
  | cons a as ih =>
    rw [List.map_cons, List.nodup_cons] at hids
    have hkeep : ∀ xs : List Op, (∀ x ∈ xs, x.id ≠ op) →
        (xs.map fun o => if o.id = op then { o with wrote := b :: o.wrote } else o) = xs := by
      intro xs hxs
      conv_rhs => rw [← List.map_id xs]
      exact List.map_congr_left fun x hx => if_neg (hxs x hx)
    rcases List.mem_cons.mp ho with rfl | ho
    · rw [List.map_cons, if_pos hoid, hkeep as ?_]
      · simp only [List.map_cons, List.sum_cons]
        omega
      · intro x hx he
        exact hids.1 (List.mem_map.mpr ⟨x, hx, he.trans hoid.symm⟩)
    · have hne : a.id ≠ op := by
        intro he
        exact hids.1 (List.mem_map.mpr ⟨o, ho, hoid.trans he.symm⟩)
      simp only [List.map_cons, if_neg hne, List.sum_cons]
      have := ih hids.2 ho
      omega

theorem length_dedup_cons (bs : List Nat) (b : Nat) : bs.dedup.length ≤ (b :: bs).dedup.length := by
  by_cases hb : b ∈ bs
  · rw [List.dedup_cons_of_mem hb]
  · rw [List.dedup_cons_of_notMem hb]
    exact Nat.le_succ _

theorem Room.logWrite (h : Room m) (hctl : Ctl m) (hok : m.Disciplined (.logWrite op b))
    (hs : m.logWrite op b = .next m') : Room m' := by
  unfold Machine.logWrite at hs
  split at hs
  · rename_i hc
    obtain ⟨o, ho, hoid⟩ := List.any_eq_true.mp hc.1
    rw [beq_iff_eq] at hoid
    split at hs
    · cases hs
    split at hs
    · cases hs
    cases hs
    have hmem : ∀ c, (m.log.lh.record b).Mem c ↔ c = b ∨ m.log.lh.Mem c := fun c => mem_record
    refine ⟨?_, ?_⟩
    · -- a block new to the log is new to the operation, which then has one less left
      have hsum := sum_left_logWrite (b := b) hctl.ids ho hoid
      have hlen : (b :: o.wrote).dedup.length ≤ MAXOPBLOCKS := hok o ho hoid
      have hfits := h.fits
      unfold demand at hfits ⊢
      have hgoal : (m.log.lh.record b).n + Op.left { o with wrote := b :: o.wrote }
          ≤ m.log.lh.n + o.left := by
        unfold Op.left
        rcases record_cases m.log.lh b with ⟨-, -, hr⟩ | ⟨hm, -, hr⟩
        · have := length_dedup_cons o.wrote b
          rw [hr]
          simp only
          omega
        · have hw : b ∉ o.wrote := fun hw => hm (h.wrote o ho b hw)
          rw [List.dedup_cons_of_notMem hw, List.length_cons] at hlen ⊢
          rw [hr]
          simp only
          omega
      simp only at hsum ⊢
      omega
    · intro o' ho' c hcm
      obtain ⟨x, hx, rfl⟩ := List.mem_map.mp ho'
      refine (hmem c).mpr ?_
      split at hcm
      · rcases List.mem_cons.mp hcm with rfl | hcm
        · exact .inl rfl
        · exact .inr (h.wrote x hx c hcm)
      · exact .inr (h.wrote x hx c hcm)
  · cases hs

theorem Room.endOp (h : Room m) (hs : m.endOp op = .next m') : Room m' := by
  have hsub : (m.ops.filter (·.id != op)).Sublist m.ops := List.filter_sublist
  have hsum : ((m.ops.filter (·.id != op)).map Op.left).sum ≤ (m.ops.map Op.left).sum :=
    (hsub.map Op.left).sum_le_sum (fun _ _ => Nat.zero_le _)
  have hroom : ∀ {m' : Machine}, m'.ops = m.ops.filter (·.id != op) → m'.log.lh = m.log.lh →
      m'.log.size = m.log.size → Room m' := by
    intro m' h1 h2 h3
    refine ⟨?_, ?_⟩
    · have hfits := h.fits
      unfold demand at hfits ⊢
      rw [h1, h2, h3]
      omega
    · rw [h1, h2]
      exact fun o ho => h.wrote o (hsub.subset ho)
  unfold Machine.endOp at hs
  split at hs
  · split at hs
    · cases hs
    · split at hs <;> cases hs <;> exact hroom rfl rfl rfl
  · cases hs

/-- The steps that neither begin, log nor end anything keep the room, unless they are
    part of a recovery, which ends with an empty log. -/
theorem Room.tick (hinv : Inv d₀ m) (h : m.pc.recovering = false → Room m) (hs : m.tick = .next m') :
    m'.pc.recovering = false → Room m' := by
  intro hr
  have hph := hinv.phase
  unfold Phase at hph
  unfold Machine.tick at hs
  cases hpc : m.pc with
  | idle => rw [hpc] at hs; cases hs
  | writeLog tail =>
    have hops := hinv.ctl.quiet (by rw [hpc]; simp)
    have hle := (h (by rw [hpc]; rfl)).lh_le
    rw [hpc] at hs
    simp only at hs
    split at hs <;> cases hs <;> exact Room.of_quiet hops hle
  | install tail =>
    have hops := hinv.ctl.quiet (by rw [hpc]; simp)
    have hle := (h (by rw [hpc]; rfl)).lh_le
    rw [hpc] at hs
    simp only at hs
    split at hs <;> cases hs
    · exact Room.of_quiet hops hle
    · exact Room.of_quiet hops (Nat.zero_le _)
  | recInstall tail =>
    rw [hpc] at hs
    simp only at hs
    split at hs <;> cases hs <;> simp [Pc.recovering] at hr
  | writeHead | clearHead | finish =>
    have hops := hinv.ctl.quiet (by rw [hpc]; simp)
    have hle := (h (by rw [hpc]; rfl)).lh_le
    rw [hpc] at hs
    cases hs
    exact Room.of_quiet hops hle
  | recRead => rw [hpc] at hs; cases hs; simp [Pc.recovering] at hr
  | recClear =>
    have hops := hinv.ctl.quiet (by rw [hpc]; simp)
    rw [hpc] at hs hph
    cases hs
    exact Room.of_quiet hops (hph.2.1.trans_le (Nat.zero_le _))

theorem Room.step (hinv : Inv d₀ m) (h : m.pc.recovering = false → Room m) (hd : m.Disciplined a)
    (hres : m.Reserved a) (hs : m.step a = .next m') : m'.pc.recovering = false → Room m' := by
  have hactive : ∀ {op : Nat}, m.active op = true → Room m := by
    intro op hact
    exact h (by rw [hinv.ctl.idle_of_active hact]; rfl)
  cases a with
  | tick => exact Room.tick hinv h hs
  | beginOp =>
    intro _
    have hr : m.pc.recovering = false := by
      simp only [Machine.step, Machine.beginOp] at hs
      split at hs
      · rename_i hc
        exact hc.1
      · cases hs
    exact (h hr).beginOp hres hs
  | logWrite op b =>
    intro _
    have hact : m.active op = true := by
      simp only [Machine.step, Machine.logWrite] at hs
      split at hs
      · rename_i hc
        exact hc.1
      · cases hs
    exact (hactive hact).logWrite hinv.ctl hd hs
  | endOp op =>
    intro _
    have hact : m.active op = true := by
      simp only [Machine.step, Machine.endOp] at hs
      split at hs
      · rename_i hc
        exact hc.1
      · cases hs
    exact (hactive hact).endOp hs
  | crash =>
    intro hr
    cases hs
    simp [Machine.crash, Pc.recovering] at hr
  | bread op b | modify op b data | brelse op b | load b | evict b =>
    simp only [Machine.step] at hs
    split at hs <;> cases hs
    exact fun hr => ⟨(h hr).fits, (h hr).wrote⟩

/-- **The reservation.** With the log area `mkfs` makes, in every run in which no
    operation logs more than `MAXOPBLOCKS` distinct blocks and every operation begins
    where its needs and those of the others fit below `log.size - 2`, no `log_write`
    finds the transaction too big. -/
theorem log_write_has_room_of_reserved {d₀ : Nat → Block} {logstart : Nat}
    (h0 : headCount (d₀ logstart) = 0) {m : Machine}
    (hr : ReachOf d₀ logstart LOGSIZE (fun m a => m.Disciplined a ∧ m.Reserved a) m)
    (op b : Nat) : m.step (.logWrite op b) ≠ .panic .tooBig := by
  have hroom : Inv d₀ m ∧ Hist m ∧ (m.pc.recovering = false → Room m) ∧ m.log.size = LOGSIZE := by
    refine Reach.invariant (I := fun m => Inv d₀ m ∧ Hist m ∧
      (m.pc.recovering = false → Room m) ∧ m.log.size = LOGSIZE) ?_ ?_ hr
    · rintro s rfl
      refine ⟨inv_boot (by decide) h0, hist_boot _ _, ?_, rfl⟩
      intro hrec
      simp [boot, Pc.recovering] at hrec
    · rintro s a s' ⟨hi, hh, hro, hsz⟩ ⟨hd, hres⟩ hs
      exact ⟨hi.step hh hd.logsChanges hs, hh.step hi.ctl hs, Room.step hi hro hd hres hs,
        (area_step hs).2.trans hsz⟩
  obtain ⟨hi, -, hro, hsz⟩ := hroom
  simp only [Machine.step, Machine.logWrite]
  split
  · rename_i hc
    have hle := (hro (by rw [hi.ctl.idle_of_active hc.1]; rfl)).lh_le
    have hfits : m.log.tooBig = false := by
      unfold tooBig
      rw [hsz] at hle ⊢
      simp only [LOGSIZE, MAXOPBLOCKS] at hle ⊢
      simp only [Bool.or_eq_false_iff, decide_eq_false_iff_not]
      omega
    rw [hfits]
    simp only [Bool.false_eq_true, if_false]
    split <;> simp
  · simp

def tenBlocks (op b : Nat) : List Act :=
  (List.range MAXOPBLOCKS).flatMap fun i => [.bread op (b + i), .logWrite op (b + i)]

theorem log_write_has_room_of_reserved_two_ops :
    ∃ m, ReachOf (fun _ => Bytes.fill 0) 2 LOGSIZE (fun m a => m.Disciplined a ∧ m.Reserved a) m ∧
      m.log.lh.n = 20 ∧ m.step (.logWrite 1 119) ≠ .panic .tooBig := by
  have hrun : ((exec step (fun m a => m.Disciplined a ∧ m.Reserved a)
      (boot (fun _ => Bytes.fill 0) 2 LOGSIZE)
      ([.tick, .tick, .tick, .beginOp, .beginOp] ++ tenBlocks 0 100 ++ tenBlocks 1 110)).map
        (·.log.lh.n)) = some 20 := by
    decide +kernel
  obtain ⟨m, hm, hn⟩ := Option.map_eq_some_iff.mp hrun
  have h0 : ReachOf (fun _ => Bytes.fill 0) 2 LOGSIZE (fun m a => m.Disciplined a ∧ m.Reserved a)
      (boot (fun _ => Bytes.fill 0) 2 LOGSIZE) := .start rfl
  have hr := Reach.exec h0 hm
  exact ⟨m, hr, hn, log_write_has_room_of_reserved (by decide) hr 1 119⟩

/-- Three operations, all admitted, of ten distinct blocks each: the last block of the
    last one is refused. -/
theorem log_write_too_big_three_ops : ∃ m, ReachOf (fun _ => Bytes.fill 0) 2 LOGSIZE Disciplined m ∧
      m.Disciplined (.logWrite 2 129) ∧ m.step (.logWrite 2 129) = .panic .tooBig := by
  have hrun : (exec step Disciplined (boot (fun _ => Bytes.fill 0) 2 LOGSIZE)
      ([.tick, .tick, .tick, .beginOp, .beginOp, .beginOp] ++ tenBlocks 0 100 ++
        tenBlocks 1 110 ++ (tenBlocks 2 120).dropLast)).map
          (fun m => decide (m.Disciplined (.logWrite 2 129) ∧ m.active 2 = true ∧
            (129, 2) ∈ m.locks ∧ m.log.tooBig = true)) = some true := by
    decide +kernel
  obtain ⟨m, hm, hlast⟩ := Option.map_eq_some_iff.mp hrun
  obtain ⟨hd, hact, hl, hbig⟩ := of_decide_eq_true hlast
  refine ⟨m, Reach.exec (.start rfl) hm, hd, ?_⟩
  simp only [Machine.step, Machine.logWrite]
  rw [if_pos ⟨hact, hl⟩, if_pos hbig]

end Machine
end ZeptOS.Log
