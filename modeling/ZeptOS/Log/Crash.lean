import Mathlib.Data.List.Nodup
import ZeptOS.Log.Header

/-!
# Crash atomicity

Whatever the operations do and wherever the power goes, a completed recovery leaves on
the home blocks exactly the updates of the commits whose header was written, in order.

The whole argument is one equation, `Inv.durable`: **replaying the log that stands on
the disk over the home blocks that stand on the disk gives the durable contents**, in
every state, whatever the machine is in the middle of. A crash changes no disk block, so
the equation survives a crash for free; a recovery only moves the home blocks towards
what the equation says they replay to, so it survives a crash in a recovery for free as
well. What is left is that each disk write of `commit` keeps it: the log blocks are
written while the header counts none of them, the header write *is* the step at which
the durable contents change, and the copies home are invisible to the replay.

The other clauses of `Inv` are what those steps rest on: which buffer holds what, and
what each phase of the commit has already done.

A block is written as a whole, and the writes reach the disk in the order in which they are
made, since `virtio_disk_rw` waits for each of them. Disks that tear blocks are not covered.
-/

namespace ZeptOS.Log

open Lib LogHeader Function

variable {i tail start : Nat} {m : Machine} {c : Nat → Option Block}

def writes (us : List Upd) : List (Nat × Block) := us.map fun u => (u.blockno, u.data)

/-- The log a recovery would find on a disk: the first `n` entries of the header, with
    the log blocks that follow it. -/
def onDisk (start : Nat) (d : Nat → Block) : List (Nat × Block) :=
  (List.range (headCount (d start))).map fun i => (headBlock (d start) i, d (start + i + 1))

variable {d : Nat → Block}

theorem onDisk_congr {d' : Nat → Block} (hs : d' start = d start)
    (hl : ∀ i, i < headCount (d start) → d' (start + i + 1) = d (start + i + 1)) :
    onDisk start d' = onDisk start d := by
  unfold onDisk
  rw [hs]
  refine List.map_congr_left fun i hi => ?_
  rw [hl i (List.mem_range.mp hi)]

theorem onDisk_of_count_zero (h : headCount (d start) = 0) : onDisk start d = [] := by
  unfold onDisk
  rw [h]
  rfl

theorem onDisk_keys (start : Nat) (d : Nat → Block) :
    (onDisk start d).map Prod.fst = (List.range (headCount (d start))).map (headBlock (d start)) := by
  unfold onDisk
  rw [List.map_map]
  rfl

/-- Which entries of the header still have their copy home to come. -/
def Pc.pending : Pc → Nat → Prop
  | .install tail, i => tail ≤ i
  | .recRead, _ | .recInstall _, _ | .recClear, _ => False
  | _, _ => True

namespace Machine

variable (d₀ : Nat → Block)

/-- What the home blocks hold once every commit so far is installed. -/
def durable (m : Machine) : Nat → Block := replay (writes m.committed.flatten) d₀

/-- What they would hold if the running transaction were committed now. -/
def target (m : Machine) : Nat → Block := replay (writes m.cur) (m.durable d₀)

/-- The control part of the invariant: who runs and who holds which buffer. -/
structure Ctl (m : Machine) : Prop where
  outstanding : m.log.outstanding = m.ops.length
  ids : (m.ops.map (·.id)).Nodup
  quiet : m.pc ≠ .idle → m.ops = []
  committing : m.pc.recovering = false → m.pc ≠ .idle → m.log.committing = true
  locked : ∀ l ∈ m.locks, m.active l.2 = true ∧ ¬ m.log.InArea l.1 ∧ l.1 < 2 ^ 32 ∧
    (m.cache l.1).isSome = true
  dirty : ∀ b ∈ m.dirty, ∃ op, (b, op) ∈ m.locks

def Phase (m : Machine) : Prop :=
  match m.pc with
  | .idle => headCount (m.disk m.log.start) = 0
  | .writeLog tail =>
    headCount (m.disk m.log.start) = 0 ∧ tail ≤ m.log.lh.n ∧
      ∀ i, i < tail → m.disk (m.log.start + i + 1) = m.target d₀ (m.log.lh.block i)
  | .writeHead =>
    headCount (m.disk m.log.start) = 0 ∧
      ∀ i, i < m.log.lh.n → m.disk (m.log.start + i + 1) = m.target d₀ (m.log.lh.block i)
  | .install tail | .recInstall tail =>
    m.cur = [] ∧ tail ≤ m.log.lh.n ∧ headCount (m.disk m.log.start) = m.log.lh.n ∧
      (∀ i, i < m.log.lh.n → headBlock (m.disk m.log.start) i = m.log.lh.block i) ∧
      ∀ i, i < tail → m.disk (m.log.lh.block i) = m.durable d₀ (m.log.lh.block i)
  | .clearHead | .recClear =>
    m.cur = [] ∧ m.log.lh.n = 0 ∧ ∀ b, ¬ m.log.InArea b → m.disk b = m.durable d₀ b
  | .finish => m.cur = [] ∧ m.log.lh.n = 0 ∧ headCount (m.disk m.log.start) = 0
  | .recRead => m.cur = [] ∧ m.log.lh.n = 0 ∧ ∀ b, m.cache b = none

/-- The part of the invariant that no phase enters. `durable` is the equation of the
    module's header; the clauses around it say that a clean buffer holds the target
    contents and that the header, in memory and on disk, names home blocks without
    repetition. -/
structure Core (m : Machine) : Prop where
  ctl : Ctl m
  sizePos : 0 < m.log.size
  lhLen : m.log.lh.n ≤ m.log.size - 1
  lhSmall : m.log.lh.n < 2 ^ 31
  lhDistinct : m.log.lh.Distinct
  lhHome : ∀ b, m.log.lh.Mem b → ¬ m.log.InArea b ∧ b < 2 ^ 32
  headLen : headCount (m.disk m.log.start) ≤ m.log.size - 1
  headDistinct : ((onDisk m.log.start m.disk).map Prod.fst).Nodup
  headHome : ∀ i, i < headCount (m.disk m.log.start) →
    ¬ m.log.InArea (headBlock (m.disk m.log.start) i)
  durable : ∀ b, ¬ m.log.InArea b →
    replay (onDisk m.log.start m.disk) m.disk b = m.durable d₀ b
  coherent : ∀ b v, m.log.InArea b → m.cache b = some v → v = m.disk b
  clean : ∀ b v, ¬ m.log.InArea b → b ∉ m.dirty → m.cache b = some v → v = m.target d₀ b
  keys : ∀ u ∈ m.cur, m.log.lh.Mem u.blockno

structure Inv (m : Machine) : Prop extends Core d₀ m where
  pinned : ∀ i, i < m.log.lh.n → m.pc.pending i →
    1 ≤ m.pins (m.log.lh.block i) ∧ (m.cache (m.log.lh.block i)).isSome = true
  phase : m.Phase d₀


/-! ## Reading the invariant -/

section
variable {d₀ : Nat → Block}

variable {op : Nat}

theorem Ctl.idle_of_active (h : Ctl m) (ha : m.active op = true) : m.pc = .idle := by
  by_contra hne
  unfold active at ha
  rw [h.quiet hne] at ha
  simp at ha

theorem Ctl.locks_nil (h : Ctl m) (hne : m.pc ≠ .idle) : m.locks = [] := by
  cases hl : m.locks with
  | nil => rfl
  | cons l ls =>
    have hact := (h.locked l (by rw [hl]; exact List.mem_cons_self)).1
    exact absurd (h.idle_of_active hact) hne

theorem Ctl.dirty_nil (h : Ctl m) (hne : m.pc ≠ .idle) : m.dirty = [] := by
  cases hd : m.dirty with
  | nil => rfl
  | cons b bs =>
    obtain ⟨op, hop⟩ := h.dirty b (by rw [hd]; exact List.mem_cons_self)
    rw [h.locks_nil hne] at hop
    simp at hop

variable {b : Nat}

theorem target_of_not_mem (h : Core d₀ m) (hb : ¬ m.log.lh.Mem b) :
    m.target d₀ b = m.durable d₀ b := by
  refine replay_of_not_mem fun hm => ?_
  obtain ⟨w, hw, rfl⟩ := List.mem_map.mp hm
  obtain ⟨u, hu, rfl⟩ := List.mem_map.mp hw
  exact hb (h.keys u hu)

theorem target_of_cur_nil (h : m.cur = []) : m.target d₀ = m.durable d₀ := by
  unfold target
  rw [h]
  rfl

theorem Core.disk_eq_durable (h : Core d₀ m) (h0 : headCount (m.disk m.log.start) = 0)
    (hb : ¬ m.log.InArea b) : m.disk b = m.durable d₀ b := by
  rw [← h.durable b hb, onDisk_of_count_zero h0, replay_nil]

theorem not_mem_onDisk {lh : LogHeader} (hc : headCount (d start) = lh.n)
    (hk : ∀ i, i < lh.n → headBlock (d start) i = lh.block i) (hb : ¬ lh.Mem b) :
    b ∉ (onDisk start d).map Prod.fst := by
  rw [onDisk_keys, hc]
  intro hm
  obtain ⟨i, hi, hib⟩ := List.mem_map.mp hm
  have hi := List.mem_range.mp hi
  exact hb ⟨i, hi, by rw [← hk i hi, hib]⟩

/-- Outside recovery, a block that no buffer holds stands on the disk as the running
    transaction would leave it: had it been logged, it would be pinned. -/
theorem Inv.disk_eq_target (h : Inv d₀ m) (hr : m.pc.recovering = false)
    (hb : ¬ m.log.InArea b) (hc : m.cache b = none) : m.disk b = m.target d₀ b := by
  have hnot : ∀ i, i < m.log.lh.n → m.pc.pending i → m.log.lh.block i ≠ b := by
    intro i hi hp he
    have := (h.pinned i hi hp).2
    rw [he, hc] at this
    simp at this
  have hph := h.phase
  unfold Phase at hph
  cases hpc : m.pc with
  | idle | writeLog | writeHead =>
    rw [hpc] at hph hnot
    have hmem : ¬ m.log.lh.Mem b := fun ⟨i, hi, he⟩ => hnot i hi trivial he
    rw [target_of_not_mem h.toCore hmem]
    first
      | exact h.disk_eq_durable hph hb
      | exact h.disk_eq_durable hph.1 hb
  | install tail =>
    rw [hpc] at hph hnot
    obtain ⟨hcur, -, hcnt, hblk, hdone⟩ := hph
    rw [target_of_cur_nil hcur]
    by_cases hmem : m.log.lh.Mem b
    · obtain ⟨i, hi, rfl⟩ := hmem
      by_cases hlt : i < tail
      · exact hdone i hlt
      · exact absurd rfl (hnot i hi (Nat.le_of_not_lt hlt))
    · rw [← h.durable b hb, replay_of_not_mem (not_mem_onDisk hcnt hblk hmem)]
  | clearHead =>
    rw [hpc] at hph
    rw [target_of_cur_nil hph.1]
    exact hph.2.2 b hb
  | finish =>
    rw [hpc] at hph
    rw [target_of_cur_nil hph.1]
    exact h.disk_eq_durable hph.2.2 hb
  | recRead | recInstall | recClear => rw [hpc] at hr; simp [Pc.recovering] at hr

theorem Inv.view_eq_target (h : Inv d₀ m) (hr : m.pc.recovering = false)
    (hb : ¬ m.log.InArea b) (hd : b ∉ m.dirty) : m.view b = m.target d₀ b := by
  unfold view
  cases hc : m.cache b with
  | none => exact h.disk_eq_target hr hb hc
  | some v => exact h.clean b v hb hd hc

theorem Core.view_inArea (h : Core d₀ m) (hb : m.log.InArea b) : m.view b = m.disk b := by
  unfold view
  cases hc : m.cache b with
  | none => rfl
  | some v => exact h.coherent b v hb hc

/-! ## The steps of an operation -/

variable {v : Block}

theorem bread_of_some (hc : m.cache b = some v) : m.bread b = m := by
  have : update m.cache b (some (m.view b)) = m.cache := by
    unfold view
    rw [hc]
    exact hc ▸ update_eq_self b m.cache
  unfold bread
  rw [this]

theorem isSome_update {x : Nat} (hx : (c x).isSome = true) :
    (update c b (some v) x).isSome = true := by
  by_cases hxb : x = b
  · simp [hxb]
  · simpa [update_of_ne hxb] using hx

def Sound (d₀ : Nat → Block) (m : Machine) (b : Nat) (v : Block) : Prop :=
  (m.log.InArea b → v = m.disk b) ∧ (¬ m.log.InArea b → b ∉ m.dirty → v = m.target d₀ b)

theorem Core.sound (h : Core d₀ m) (hc : m.cache b = some v) : Sound d₀ m b v :=
  ⟨fun hin => h.coherent b v hin hc, fun hin hd => h.clean b v hin hd hc⟩

theorem Core.recache (h : Core d₀ m) (hval : ∀ b v, c b = some v → Sound d₀ m b v)
    (hlocked : ∀ l ∈ m.locks, (c l.1).isSome = true) : Core d₀ { m with cache := c } :=
  { h with
    ctl := { h.ctl with
      locked := fun l hl =>
        ⟨(h.ctl.locked l hl).1, (h.ctl.locked l hl).2.1, (h.ctl.locked l hl).2.2.1, hlocked l hl⟩ }
    coherent := fun b v hin hc => (hval b v hc).1 hin
    clean := fun b v hin hd hc => (hval b v hc).2 hin hd }

theorem Phase.recache (h : m.Phase d₀) (hpc : m.pc ≠ .recRead) (cache : Nat → Option Block) :
    Phase d₀ { m with cache := cache } := by
  unfold Phase at h ⊢
  cases hp : m.pc with
  | recRead => exact absurd hp hpc
  | idle | writeLog | writeHead | install | clearHead | finish | recInstall | recClear =>
    rw [hp] at h
    exact h

theorem Inv.fill (h : Inv d₀ m) (hpc : m.pc ≠ .recRead)
    (hv : Sound d₀ m b v) : Inv d₀ { m with cache := update m.cache b (some v) } := by
  have hcore := h.toCore.recache (c := update m.cache b (some v)) (fun c w hc => ?_)
    fun l hl => isSome_update (h.ctl.locked l hl).2.2.2
  · exact { hcore with
      pinned := fun i hi hp => (h.pinned i hi hp).imp_right isSome_update
      phase := Phase.recache h.phase hpc _ }
  · by_cases hcb : c = b
    · subst hcb
      rw [update_self, Option.some.injEq] at hc
      exact hc ▸ hv
    · rw [update_of_ne hcb] at hc
      exact h.sound hc

theorem Inv.bread (h : Inv d₀ m) (hpc : m.pc ≠ .recRead)
    (hr : m.pc.recovering = false ∨ m.log.InArea b) : Inv d₀ (m.bread b) := by
  refine h.fill hpc ?_
  unfold view
  cases hc : m.cache b with
  | some v => exact h.sound hc
  | none => exact ⟨fun _ => rfl, fun hin _ => h.disk_eq_target (hr.resolve_right hin) hin hc⟩

variable {m' : Machine}

theorem Inv.beginOp (h : Inv d₀ m) (hid : ∀ o ∈ m.ops, o.id < m.nextOp)
    (hs : m.beginOp = .next m') : Inv d₀ m' := by
  unfold Machine.beginOp at hs
  split at hs
  · rename_i hc
    obtain ⟨hr, ha⟩ := hc
    -- `begin_op` got past the test of `committing`, so no commit is running
    have hidle : m.pc = .idle := by
      by_contra hne
      have := h.ctl.committing hr hne
      simp [Log.admits, this] at ha
    cases hs
    refine { h with ctl := ⟨?_, ?_, ?_, ?_, ?_, h.ctl.dirty⟩ }
    · simp [h.ctl.outstanding]
    · simp only [List.map_cons, List.nodup_cons]
      refine ⟨fun hm => ?_, h.ctl.ids⟩
      obtain ⟨o, ho, he⟩ := List.mem_map.mp hm
      exact absurd (hid o ho) (by omega)
    · intro hne; exact absurd hidle hne
    · intro _ hne; exact absurd hidle hne
    · intro l hl
      obtain ⟨h1, h2⟩ := h.ctl.locked l hl
      refine ⟨?_, h2⟩
      simp only [active, List.any_cons, Bool.or_eq_true] at h1 ⊢
      exact Or.inr h1
  · cases hs

theorem Inv.lock (h : Inv d₀ m) (ha : m.active op = true)
    (hb : ¬ m.log.InArea b) (hlt : b < 2 ^ 32) (hc : (m.cache b).isSome = true) :
    Inv d₀ { m with locks := (b, op) :: m.locks } := by
  refine { h with ctl := { h.ctl with locked := ?_, dirty := ?_ } }
  · intro l hl
    rcases List.mem_cons.mp hl with rfl | hl
    · exact ⟨ha, hb, hlt, hc⟩
    · exact h.ctl.locked l hl
  · intro c hcd
    obtain ⟨op', hop⟩ := h.ctl.dirty c hcd
    exact ⟨op', List.mem_cons_of_mem _ hop⟩

theorem Inv.modify (h : Inv d₀ m) (hl : (b, op) ∈ m.locks) (data : Block) :
    Inv d₀ { m with cache := update m.cache b (some data), dirty := b :: m.dirty } := by
  obtain ⟨hact, hb, -, -⟩ := h.ctl.locked _ hl
  have hidle := h.ctl.idle_of_active hact
  have hdirty : Inv d₀ { m with dirty := b :: m.dirty } := by
    refine { h with ctl := { h.ctl with dirty := fun c hc => ?_ }, clean := fun c v hin hd hc => ?_ }
    · rcases List.mem_cons.mp hc with rfl | hc
      · exact ⟨op, hl⟩
      · exact h.ctl.dirty c hc
    · exact h.clean c v hin (fun hm => hd (List.mem_cons_of_mem _ hm)) hc
  exact hdirty.fill (hidle.trans_ne (by simp))
    ⟨fun hin => absurd hin hb, fun _ hd => absurd List.mem_cons_self hd⟩

theorem active_map {op' : Nat} :
    (m.ops.map fun o => if o.id = op then { o with wrote := b :: o.wrote } else o).any
      (fun o => o.id == op') = m.active op' := by
  unfold active
  rw [List.any_map]
  congr 1
  funext o
  by_cases ho : o.id = op <;> simp [ho]

theorem target_log (b op : Nat) (v : Block) :
    replay (writes (m.cur ++ [⟨op, b, v⟩])) (m.durable d₀) = update (m.target d₀) b v := by
  unfold target
  simp only [writes, List.map_append, List.map_cons, List.map_nil, replay_concat]

theorem Inv.logWrite (h : Inv d₀ m) (hs : m.logWrite op b = .next m') : Inv d₀ m' := by
  unfold Machine.logWrite at hs
  split at hs
  · rename_i hc
    obtain ⟨hact, hlk⟩ := hc
    split at hs
    · cases hs
    · rename_i hbig
      split at hs
      · cases hs
      · cases hs
        obtain ⟨-, hb, hb32, hcached⟩ := h.ctl.locked _ hlk
        have hidle := h.ctl.idle_of_active hact
        simp only [Log.tooBig, Bool.or_eq_true, decide_eq_true_eq, not_or, Nat.not_le] at hbig
        have hn := record_n_le m.log.lh b
        refine
          { h with
            ctl := ⟨?_, ?_, ?_, h.ctl.committing, ?_, ?_⟩
            lhLen := ?_, lhSmall := ?_, lhDistinct := h.lhDistinct.record b, lhHome := ?_
            clean := ?_, keys := ?_, pinned := ?_, phase := ?_ }
        · simpa using h.ctl.outstanding
        · have : ∀ o : Op, (if o.id = op then { o with wrote := b :: o.wrote } else o).id = o.id := by
            intro o; split <;> rfl
          simpa [List.map_map, Function.comp_def, this] using h.ctl.ids
        · intro hne; exact absurd hidle hne
        · intro l hl
          obtain ⟨h1, h2⟩ := h.ctl.locked l hl
          refine ⟨?_, h2⟩
          exact active_map.trans h1
        · intro c hcd
          exact h.ctl.dirty c (List.mem_filter.mp hcd).1
        · show (m.log.lh.record b).n ≤ m.log.size - 1
          omega
        · show (m.log.lh.record b).n < 2 ^ 31
          have := hbig.1
          simp only [LOGSIZE, MAXOPBLOCKS] at this
          omega
        · intro c hm
          rcases mem_record.mp hm with rfl | hm
          · exact ⟨hb, hb32⟩
          · exact h.lhHome c hm
        · intro c v hin hd hcv
          show v = replay (writes (m.cur ++ [⟨op, b, m.view b⟩])) (m.durable d₀) c
          rw [target_log]
          by_cases hcb : c = b
          · subst hcb
            have hcv : m.cache c = some v := hcv
            rw [update_self, view, hcv]
            rfl
          · rw [update_of_ne hcb]
            refine h.clean c v hin (fun hcd => hd ?_) hcv
            exact List.mem_filter.mpr ⟨hcd, by simpa using hcb⟩
        · intro u hu
          rcases List.mem_append.mp hu with hu | hu
          · exact mem_record.mpr (Or.inr (h.keys u hu))
          · rw [List.mem_singleton] at hu
            subst hu
            exact mem_record.mpr (Or.inl rfl)
        · intro i hi hp
          rcases record_cases m.log.lh b with ⟨-, hne, hr⟩ | ⟨-, he, hr⟩
          · simp only [hr, if_neg hne] at hi ⊢
            exact h.pinned i hi hp
          · simp only [hr, if_pos he] at hi ⊢
            by_cases hin : i = m.log.lh.n
            · subst hin
              rw [update_self]
              exact ⟨by simp, hcached⟩
            · rw [update_of_ne hin]
              have hpin := h.pinned i (by omega) hp
              refine ⟨?_, hpin.2⟩
              by_cases hib : m.log.lh.block i = b
              · simp [hib]
              · simpa [update_of_ne hib] using hpin.1
        · have hph := h.phase
          unfold Phase at hph ⊢
          rw [hidle] at hph
          simp only [hidle]
          exact hph
  · cases hs

theorem Inv.brelse (h : Inv d₀ m) (hd : b ∉ m.dirty) :
    Inv d₀ { m with locks := m.locks.filter (· != (b, op)) } := by
  refine { h with ctl := { h.ctl with locked := ?_, dirty := ?_ } }
  · intro l hl
    exact h.ctl.locked l (List.mem_filter.mp hl).1
  · intro c hc
    obtain ⟨op', hop⟩ := h.ctl.dirty c hc
    refine ⟨op', List.mem_filter.mpr ⟨hop, ?_⟩⟩
    have : c ≠ b := fun he => hd (he ▸ hc)
    simp [this]

theorem length_filter_id {ops : List Op} (hn : (ops.map (·.id)).Nodup)
    (ha : ops.any (fun o => o.id == op) = true) :
    (ops.filter (·.id != op)).length = ops.length - 1 := by
  induction ops with
  | nil => simp at ha
  | cons o os ih =>
    rw [List.map_cons, List.nodup_cons] at hn
    by_cases ho : o.id = op
    · have hall : os.filter (·.id != op) = os := by
        refine List.filter_eq_self.mpr fun o' ho' => ?_
        have : o'.id ≠ op := fun he => hn.1 (by rw [ho, ← he]; exact List.mem_map_of_mem ho')
        simpa using this
      simp [ho, hall]
    · simp only [List.any_cons, ho, Bool.or_eq_true, beq_iff_eq, false_or] at ha
      have hpos : 0 < os.length := by
        cases os with
        | nil => simp at ha
        | cons _ _ => simp
      have := ih hn.2 ha
      simp only [List.filter_cons, bne_iff_ne, ne_eq, ho, not_false_eq_true, if_true,
        List.length_cons, this]
      omega

theorem Inv.endOp (h : Inv d₀ m) (hs : m.endOp op = .next m') : Inv d₀ m' := by
  unfold Machine.endOp at hs
  split at hs
  · rename_i hc
    obtain ⟨hact, hlk⟩ := hc
    have hidle := h.ctl.idle_of_active hact
    have hlen := length_filter_id h.ctl.ids hact
    have hids : ((m.ops.filter (·.id != op)).map (·.id)).Nodup :=
      h.ctl.ids.sublist (List.filter_sublist.map _)
    have hph := h.phase
    unfold Phase at hph
    rw [hidle] at hph
    -- an operation that still holds a buffer is not the one that ends
    have hlocked : ∀ l ∈ m.locks,
        (m.ops.filter (·.id != op)).any (fun o => o.id == l.2) = true := by
      intro l hl
      obtain ⟨h1, -⟩ := h.ctl.locked l hl
      have hne := List.all_eq_true.mp hlk l hl
      obtain ⟨o, ho, hoid⟩ := List.any_eq_true.mp h1
      refine List.any_eq_true.mpr ⟨o, List.mem_filter.mpr ⟨ho, ?_⟩, hoid⟩
      rw [beq_iff_eq] at hoid
      rw [hoid]
      exact hne
    split at hs
    · cases hs
    · split at hs
      · rename_i hout
        have hnil : m.ops.filter (·.id != op) = [] := by
          apply List.eq_nil_of_length_eq_zero
          rw [hlen, ← h.ctl.outstanding]
          exact hout
        have hnolock : m.locks = [] := by
          cases hl : m.locks with
          | nil => rfl
          | cons l ls =>
            have := hlocked l (by rw [hl]; exact List.mem_cons_self)
            rw [hnil] at this
            simp at this
        cases hs
        refine { h with ctl := ⟨?_, hids, ?_, ?_, ?_, h.ctl.dirty⟩, pinned := ?_, phase := ?_ }
        · show m.log.outstanding - 1 = _
          rw [hnil, hout]
          rfl
        · intro _; exact hnil
        · intro _ _; rfl
        · intro l hl
          rw [hnolock] at hl
          simp at hl
        · intro i hi _
          exact h.pinned i hi (by rw [hidle]; trivial)
        · unfold Phase
          by_cases hn : m.log.lh.n > 0
          · simp only [hn, if_true]
            exact ⟨hph, Nat.zero_le _, fun i hi => absurd hi (Nat.not_lt_zero _)⟩
          · simp only [hn, if_false]
            refine ⟨?_, by omega, hph⟩
            -- nothing was logged, so nothing is lost by not committing
            cases hcur : m.cur with
            | nil => rfl
            | cons u us =>
              obtain ⟨i, hi, -⟩ := h.keys u (by rw [hcur]; exact List.mem_cons_self)
              omega
      · cases hs
        refine { h with ctl := ⟨?_, hids, ?_, ?_, ?_, h.ctl.dirty⟩, phase := ?_ }
        · show m.log.outstanding - 1 = _
          rw [hlen, h.ctl.outstanding]
        · intro hne; exact absurd hidle hne
        · intro _ hne; exact absurd hidle hne
        · intro l hl
          exact ⟨hlocked l hl, (h.ctl.locked l hl).2⟩
        · unfold Phase
          simp only [hidle]
          exact hph
  · cases hs

theorem Inv.evict (h : Inv d₀ m) (hp : m.pins b = 0) (hl : m.lockFree b = true) :
    Inv d₀ { m with cache := update m.cache b none } := by
  have hsub : ∀ c v, update m.cache b none c = some v → m.cache c = some v := by
    intro c v hcv
    by_cases hcb : c = b
    · rw [hcb, update_self] at hcv
      cases hcv
    · rwa [update_of_ne hcb] at hcv
  have hstays {c : Nat} (hcb : c ≠ b) (hs : (m.cache c).isSome = true) :
      (update m.cache b none c).isSome = true := by
    rwa [update_of_ne hcb]
  have hcore := h.toCore.recache (fun c v hc => h.sound (hsub c v hc)) fun l hl' => ?_
  · refine { hcore with pinned := fun i hi hpend => ?_, phase := ?_ }
    · obtain ⟨h1, h2⟩ := h.pinned i hi hpend
      refine ⟨h1, hstays (fun he => ?_) h2⟩
      rw [he, hp] at h1
      omega
    · by_cases hpc : m.pc = .recRead
      · have hph := h.phase
        unfold Phase at hph ⊢
        rw [hpc] at hph
        simp only [hpc]
        exact ⟨hph.1, hph.2.1, fun c => by
          by_contra hne
          obtain ⟨v, hv⟩ := Option.ne_none_iff_exists'.mp hne
          exact absurd (hsub c v hv) (by simp [hph.2.2 c])⟩
      · exact Phase.recache h.phase hpc _
  · exact hstays (by simpa using List.all_eq_true.mp hl l hl') (h.ctl.locked l hl').2.2.2

/-! ## The disk writes of `commit` and of the recovery -/

theorem ne_of_inArea {l : Log} {a : Nat} (ha : l.InArea a) (hb : ¬ l.InArea b) : b ≠ a := by
  rintro rfl
  exact hb ha

theorem inArea_start (h : Core d₀ m) : m.log.InArea m.log.start :=
  ⟨le_rfl, Nat.lt_add_of_pos_right h.sizePos⟩

theorem inArea_entry (hi : i < m.log.size - 1) : m.log.InArea (m.log.start + i + 1) :=
  ⟨by omega, by omega⟩

theorem onDisk_update_home (h : Core d₀ m) (hb : ¬ m.log.InArea b) (v : Block) :
    onDisk m.log.start (update m.disk b v) = onDisk m.log.start m.disk := by
  refine onDisk_congr (update_of_ne ?_ _ _) fun i hi => update_of_ne ?_ _ _
  · exact (ne_of_inArea (inArea_start h) hb).symm
  · exact (ne_of_inArea (inArea_entry (hi.trans_le h.headLen)) hb).symm

/-- **A disk write**, of a block of the log or of one that gets its target contents, seen from everything
    but the log on disk. What is committed may change with it, as long as the target contents do not. -/
theorem Core.written (h : Core d₀ m) {C : List (List Upd)} {U : List Upd}
    (hv : ¬ m.log.InArea b → v = m.target d₀ b)
    (ht : replay (writes U) (replay (writes C.flatten) d₀) = m.target d₀) (hus : U ⊆ m.cur)
    (hlen : headCount (update m.disk b v m.log.start) ≤ m.log.size - 1)
    (hnd : ((onDisk m.log.start (update m.disk b v)).map Prod.fst).Nodup)
    (hhome : ∀ i, i < headCount (update m.disk b v m.log.start) →
      ¬ m.log.InArea (headBlock (update m.disk b v m.log.start) i))
    (hdur : ∀ c, ¬ m.log.InArea c → replay (onDisk m.log.start (update m.disk b v))
      (update m.disk b v) c = replay (writes C.flatten) d₀ c) :
    Core d₀ { m.bwrite b v with committed := C, cur := U } := by
  refine
    { h with
      ctl := { h.ctl with locked := fun l hl => ?_ }
      headLen := hlen, headDistinct := hnd, headHome := hhome, durable := hdur
      coherent := fun c w hin hc => ?_, clean := fun c w hin hd hc => ?_
      keys := fun u hu => h.keys u (hus hu) }
  · obtain ⟨h1, h2, h3, h4⟩ := h.ctl.locked l hl
    exact ⟨h1, h2, h3, isSome_update h4⟩
  · by_cases hcb : c = b
    · subst hcb
      simp only [Machine.bwrite, update_self, Option.some.injEq] at hc ⊢
      exact hc.symm
    · simp only [Machine.bwrite, update_of_ne hcb] at hc ⊢
      exact h.coherent c w hin hc
  · show w = replay (writes U) (replay (writes C.flatten) d₀) c
    rw [ht]
    by_cases hcb : c = b
    · subst hcb
      simp only [Machine.bwrite, update_self, Option.some.injEq] at hc
      exact hc ▸ hv hin
    · simp only [Machine.bwrite, update_of_ne hcb] at hc
      exact h.clean c w hin hd hc

/-- **A copy home is invisible**: the block gets what the log on disk says it has. -/
theorem Core.bwriteHome (h : Core d₀ m) (hb : ¬ m.log.InArea b) (hcur : m.cur = []) :
    Core d₀ (m.bwrite b (m.durable d₀ b)) := by
  have hstart : update m.disk b (m.durable d₀ b) m.log.start = m.disk m.log.start :=
    update_of_ne (ne_of_inArea (inArea_start h) hb).symm _ _
  have hlog := onDisk_update_home h hb (m.durable d₀ b)
  refine h.written (C := m.committed) (U := m.cur) (fun _ => congrFun (target_of_cur_nil hcur).symm b)
    rfl (List.Subset.refl _) ?_ ?_ ?_ fun c hc => ?_
  · rw [hstart]
    exact h.headLen
  · rw [hlog]
    exact h.headDistinct
  · rw [hstart]
    exact h.headHome
  · refine Eq.trans ?_ (h.durable c hc)
    rw [hlog, ← h.durable b hb, replay_update]

theorem Core.bwriteEntry (h : Core d₀ m) (h0 : headCount (m.disk m.log.start) = 0)
    (hi : i < m.log.size - 1) (v : Block) : Core d₀ (m.bwrite (m.log.start + i + 1) v) := by
  have hstart : update m.disk (m.log.start + i + 1) v m.log.start
      = m.disk m.log.start := update_of_ne (by omega) _ _
  have hnil : onDisk m.log.start (update m.disk (m.log.start + i + 1) v) = [] :=
    onDisk_of_count_zero (by rw [hstart]; exact h0)
  have hin := inArea_entry hi
  refine h.written (fun hn => absurd hin hn) rfl (List.Subset.refl _) ?_ ?_ ?_ ?_
  · rw [hstart]; exact h.headLen
  · rw [hnil]; simp
  · rw [hstart]; exact h.headHome
  · intro c hc
    rw [hnil, replay_nil, update_of_ne (ne_of_inArea hin hc)]
    exact h.disk_eq_durable h0 hc

theorem Core.clearHead (h : Core d₀ m) (hn : m.log.lh.n = 0)
    (hdisk : ∀ b, ¬ m.log.InArea b → m.disk b = m.durable d₀ b) :
    Core d₀ m.writeHead ∧ headCount (m.writeHead.disk m.log.start) = 0 := by
  have h0 : headCount (m.writeHead.disk m.log.start) = 0 := by
    simp only [writeHead, bwrite, update_self]
    rw [headCount_fillHead (by omega), hn]
  have hnil := onDisk_of_count_zero h0
  refine ⟨h.written (fun hn => absurd (inArea_start h) hn) rfl (List.Subset.refl _) ?_ ?_ ?_ ?_, h0⟩
  · exact h0.trans_le (Nat.zero_le _)
  · exact hnil ▸ by simp
  · intro i hi
    exact absurd (Nat.lt_of_lt_of_eq hi h0) (Nat.not_lt_zero _)
  · intro c hc
    have : onDisk m.log.start (update m.disk m.log.start
        (m.log.lh.fillHead (m.view m.log.start))) = [] := hnil
    rw [this, replay_nil, update_of_ne (ne_of_inArea (inArea_start h) hc)]
    exact hdisk c hc

theorem durable_commit :
    replay (writes []) (replay (writes (m.committed ++ [m.cur]).flatten) d₀) = m.target d₀ := by
  unfold target durable
  simp only [writes, List.map_nil, List.flatten_append, List.flatten_singleton, List.map_append,
    replay_append, replay_nil]

/-- **The commit point.** Writing the header turns the target contents into the durable
    ones: the log on disk is empty before and complete after. -/
theorem Core.commitHead (h : Core d₀ m) (h0 : headCount (m.disk m.log.start) = 0)
    (hlog : ∀ i, i < m.log.lh.n → m.disk (m.log.start + i + 1) = m.target d₀ (m.log.lh.block i)) :
    Core d₀ { m.writeHead with committed := m.committed ++ [m.cur], cur := [] } ∧
      headCount (m.writeHead.disk m.log.start) = m.log.lh.n ∧
      ∀ i, i < m.log.lh.n → headBlock (m.writeHead.disk m.log.start) i = m.log.lh.block i := by
  have hst : m.writeHead.disk m.log.start = m.log.lh.fillHead (m.view m.log.start) := by
    simp only [writeHead, bwrite, update_self]
  have hcnt : headCount (m.writeHead.disk m.log.start) = m.log.lh.n := by
    rw [hst]
    exact headCount_fillHead h.lhSmall _
  have hblk : ∀ i, i < m.log.lh.n →
      headBlock (m.writeHead.disk m.log.start) i = m.log.lh.block i := by
    intro i hi
    rw [hst]
    exact headBlock_fillHead _ hi (h.lhHome _ ⟨i, hi, rfl⟩).2
  have hother : ∀ c, c ≠ m.log.start → m.writeHead.disk c = m.disk c := by
    intro c hc
    simp only [writeHead, bwrite, update_of_ne hc]
  have hnd : ((onDisk m.log.start m.writeHead.disk).map Prod.fst).Nodup := by
    rw [onDisk_keys, hcnt]
    refine List.Nodup.map_on (fun i hi j hj he => ?_) List.nodup_range
    have hi := List.mem_range.mp hi
    have hj := List.mem_range.mp hj
    rw [hblk i hi, hblk j hj] at he
    exact h.lhDistinct i j hi hj he
  refine ⟨h.written (fun hn => absurd (inArea_start h) hn) durable_commit (List.nil_subset _) ?_ hnd
    (fun i hi => ?_) fun c hc => ?_, hcnt, hblk⟩
  · exact hcnt.trans_le h.lhLen
  · have hi : i < m.log.lh.n := hcnt ▸ hi
    exact (hblk i hi).symm ▸ (h.lhHome _ ⟨i, hi, rfl⟩).1
  · show replay (onDisk m.log.start m.writeHead.disk) m.writeHead.disk c
      = replay (writes []) (replay (writes (m.committed ++ [m.cur]).flatten) d₀) c
    rw [durable_commit]
    by_cases hmem : m.log.lh.Mem c
    · obtain ⟨i, hi, rfl⟩ := hmem
      refine replay_of_mem hnd (List.mem_map.mpr ⟨i, List.mem_range.mpr (hcnt ▸ hi), ?_⟩)
      rw [hblk i hi, hother _ (by omega), hlog i hi]
    · rw [replay_of_not_mem (not_mem_onDisk hcnt hblk hmem), target_of_not_mem h hmem,
        hother _ (ne_of_inArea (inArea_start h) hc)]
      exact h.disk_eq_durable h0 hc

theorem Core.setPc (h : Core d₀ m) (hne : m.pc ≠ .idle) {pc : Pc}
    (hc : pc = .idle ∨ pc.recovering = true ∨ m.pc.recovering = false) : Core d₀ { m with pc := pc } :=
  { h with ctl := { h.ctl with
      quiet := fun _ => h.ctl.quiet hne
      committing := fun hr hi =>
        h.ctl.committing ((hc.resolve_left hi).resolve_left (by simp [hr])) hne } }

theorem Core.setPins (h : Core d₀ m) (pins : Nat → Nat) : Core d₀ { m with pins := pins } :=
  { h with ctl := { h.ctl with locked := h.ctl.locked } }

/-- What `install_trans` has done before the round of entry `tail`. -/
def Installed (d₀ : Nat → Block) (m : Machine) (tail : Nat) : Prop :=
  m.cur = [] ∧ tail ≤ m.log.lh.n ∧ headCount (m.disk m.log.start) = m.log.lh.n ∧
    (∀ i, i < m.log.lh.n → headBlock (m.disk m.log.start) i = m.log.lh.block i) ∧
    ∀ i, i < tail → m.disk (m.log.lh.block i) = m.durable d₀ (m.log.lh.block i)

/-- One round of `install_trans`, of a commit or of a recovery: the home block gets what
    the log on disk says it has. -/
theorem Inv.installOne (h : Inv d₀ m) (hi : Installed d₀ m tail) (hrr : m.pc ≠ .recRead)
    (ht : tail < m.log.lh.n) :
    Core d₀ (m.installOne tail) ∧ Installed d₀ (m.installOne tail) (tail + 1) ∧
      ∀ b, (m.cache b).isSome = true → ((m.installOne tail).cache b).isSome = true := by
  obtain ⟨hcur, -, hcnt, hblk, hdone⟩ := hi
  have hhome := (h.lhHome _ ⟨tail, ht, rfl⟩).1
  have harea : m.log.InArea (m.log.start + tail + 1) :=
    inArea_entry (ht.trans_le h.lhLen)
  have hval : m.view (m.log.start + tail + 1) = m.durable d₀ (m.log.lh.block tail) := by
    rw [h.view_inArea harea, ← h.durable _ hhome]
    refine (replay_of_mem h.headDistinct (List.mem_map.mpr ⟨tail, ?_, ?_⟩)).symm
    · exact List.mem_range.mpr (hcnt ▸ ht)
    · rw [hblk tail ht]
  have heq : m.installOne tail = (m.bread (m.log.start + tail + 1)).bwrite (m.log.lh.block tail)
      (m.durable d₀ (m.log.lh.block tail)) := by
    unfold Machine.installOne
    rw [hval]
  have hst : update m.disk (m.log.lh.block tail)
      (m.durable d₀ (m.log.lh.block tail)) m.log.start = m.disk m.log.start :=
    update_of_ne (ne_of_inArea (inArea_start h.toCore) hhome).symm _ _
  have hb := (h.bread hrr (Or.inr harea)).toCore
  rw [heq]
  refine ⟨hb.bwriteHome hhome hcur, ⟨hcur, ht, ?_, ?_, fun i hi => ?_⟩,
    fun b hs => isSome_update (isSome_update hs)⟩
  · simp only [bwrite, Machine.bread, hst]
    exact hcnt
  · simp only [bwrite, Machine.bread, hst]
    exact hblk
  · show update m.disk (m.log.lh.block tail)
      (m.durable d₀ (m.log.lh.block tail)) (m.log.lh.block i) = m.durable d₀ (m.log.lh.block i)
    by_cases hib : m.log.lh.block i = m.log.lh.block tail
    · rw [hib, update_self]
    · rw [update_of_ne hib]
      exact hdone i (Nat.lt_of_le_of_ne (Nat.lt_succ_iff.mp hi) fun he => hib (by rw [he]))

theorem Core.disk_of_installed (h : Core d₀ m) (hi : Installed d₀ m tail) (ht : ¬ tail < m.log.lh.n)
    (hb : ¬ m.log.InArea b) : m.disk b = m.durable d₀ b := by
  obtain ⟨-, -, hcnt, hblk, hdone⟩ := hi
  by_cases hmem : m.log.lh.Mem b
  · obtain ⟨i, hi, rfl⟩ := hmem
    exact hdone i (hi.trans_le (Nat.le_of_not_lt ht))
  · rw [← h.durable b hb, replay_of_not_mem (not_mem_onDisk hcnt hblk hmem)]

theorem Core.clearCount (h : Core d₀ m) (hcur : m.cur = []) : Core d₀ m.clearCount := by
  refine { h with ctl := { h.ctl with locked := h.ctl.locked },
                  lhLen := Nat.zero_le _, lhSmall := by simp [Machine.clearCount],
                  lhDistinct := ?_, lhHome := ?_, keys := ?_ }
  · intro i j hi
    exact absurd hi (Nat.not_lt_zero _)
  · rintro b ⟨i, hi, -⟩
    exact absurd hi (Nat.not_lt_zero _)
  · intro u hu
    have hu : u ∈ m.cur := hu
    rw [hcur] at hu
    simp at hu

/-! ## One step keeps the invariant -/

theorem Inv.tick (h : Inv d₀ m) (hs : m.tick = .next m') : Inv d₀ m' := by
  have hph := h.phase
  have hnone {p : Prop} {i n : Nat} (hn : n = 0) (hi : i < n) : p :=
    absurd (Nat.lt_of_lt_of_eq hi hn) (Nat.not_lt_zero _)
  unfold Phase at hph
  unfold Machine.tick at hs
  cases hpc : m.pc with
  | idle => rw [hpc] at hs; cases hs
  | writeLog tail =>
    rw [hpc] at hs hph
    obtain ⟨h0, hle, hlog⟩ := hph
    have hne : m.pc ≠ .idle := by simp [hpc]
    have hrec : m.pc.recovering = false := by simp [hpc, Pc.recovering]
    have hpins (i : Nat) (hi : i < m.log.lh.n) := h.pinned i hi (by rw [hpc]; trivial)
    dsimp only at hs
    split at hs
    · next ht =>
      cases hs
      obtain ⟨v, hv⟩ := Option.isSome_iff_exists.mp (hpins tail ht).2
      have hview : m.view (m.log.lh.block tail) = m.target d₀ (m.log.lh.block tail) := by
        refine h.view_eq_target hrec (h.lhHome _ ⟨tail, ht, rfl⟩).1 ?_
        simp [h.ctl.dirty_nil hne]
      have heq : m.writeLogOne tail
          = m.bwrite (m.log.start + tail + 1) (m.target d₀ (m.log.lh.block tail)) := by
        unfold Machine.writeLogOne
        rw [bread_of_some hv, hview]
      have hcore := h.toCore.bwriteEntry h0 (ht.trans_le h.lhLen)
        (m.target d₀ (m.log.lh.block tail))
      rw [heq]
      refine { hcore.setPc hne (.inr (.inr hrec)) with
        pinned := fun i hi _ => (hpins i hi).imp_right isSome_update, phase := ⟨?_, ht, fun i hi => ?_⟩ }
      · simp only [bwrite]
        rw [update_of_ne (by omega)]
        exact h0
      · simp only [bwrite]
        by_cases hit : i = tail
        · subst hit
          rw [update_self]
          rfl
        · rw [update_of_ne (by omega)]
          exact hlog i (by omega)
    · next ht =>
      cases hs
      exact { h.toCore.setPc hne (.inr (.inr hrec)) with
        pinned := fun i hi _ => hpins i hi
        phase := ⟨h0, fun i hi => hlog i (hi.trans_le (Nat.le_of_not_lt ht))⟩ }
  | writeHead =>
    rw [hpc] at hs hph
    obtain ⟨hcore, hcnt, hblk⟩ := h.toCore.commitHead hph.1 hph.2
    cases hs
    exact { hcore.setPc (show m.pc ≠ .idle by simp [hpc])
        (.inr (.inr (show m.pc.recovering = false by simp [hpc, Pc.recovering]))) with
      pinned := fun i hi _ => (h.pinned i hi (by rw [hpc]; trivial)).imp_right isSome_update
      phase := ⟨rfl, Nat.zero_le _, hcnt, hblk, fun _ hi => hnone rfl hi⟩ }
  | install tail =>
    rw [hpc] at hs hph
    have hne : m.pc ≠ .idle := by simp [hpc]
    have hrec : m.pc.recovering = false := by simp [hpc, Pc.recovering]
    dsimp only at hs
    split at hs
    · next ht =>
      cases hs
      obtain ⟨hcore, hinst, hsome⟩ := h.installOne hph (by simp [hpc]) ht
      have hpins := hcore.setPins
        (update m.pins (m.log.lh.block tail) (m.pins (m.log.lh.block tail) - 1))
      refine { hpins.setPc hne (.inr (.inr hrec)) with pinned := fun i hi hp => ?_, phase := hinst }
      have hp : tail + 1 ≤ i := hp
      obtain ⟨h1, h2⟩ := h.pinned i hi (by rw [hpc]; exact Nat.le_of_succ_le hp)
      -- the pin that was dropped is another entry's: no block is logged twice
      have hib : m.log.lh.block i ≠ m.log.lh.block tail := by
        intro he
        have := h.lhDistinct i tail hi ht he
        omega
      refine ⟨?_, hsome _ h2⟩
      show 1 ≤ update m.pins (m.log.lh.block tail) _ (m.log.lh.block i)
      rw [update_of_ne hib]
      exact h1
    · next ht =>
      cases hs
      exact { (h.toCore.clearCount hph.1).setPc hne (.inr (.inr hrec)) with
        pinned := fun _ hi => hnone rfl hi
        phase := ⟨hph.1, rfl, fun b hb => h.toCore.disk_of_installed hph ht hb⟩ }
  | clearHead =>
    rw [hpc] at hs hph
    obtain ⟨hcur, hn, hdisk⟩ := hph
    obtain ⟨hcore, h0⟩ := h.toCore.clearHead hn hdisk
    cases hs
    exact { hcore.setPc (show m.pc ≠ .idle by simp [hpc])
        (.inr (.inr (show m.pc.recovering = false by simp [hpc, Pc.recovering]))) with
      pinned := fun _ hi => hnone hn hi, phase := ⟨hcur, hn, h0⟩ }
  | finish =>
    rw [hpc] at hs hph
    obtain ⟨hcur, hn, h0⟩ := hph
    cases hs
    exact { h with
      ctl := { h.ctl with
        quiet := fun _ => h.ctl.quiet (by simp [hpc]), committing := fun _ hid => absurd rfl hid }
      pinned := fun _ hi => hnone hn hi, phase := h0 }
  | recRead =>
    rw [hpc] at hs hph
    obtain ⟨hcur, hn, hcache⟩ := hph
    have hne : m.pc ≠ .idle := by simp [hpc]
    have hview : m.view m.log.start = m.disk m.log.start := by
      unfold view
      rw [hcache]
      rfl
    cases hs
    have hlh : ∀ i, i < headCount (m.disk m.log.start) →
        m.readHead.log.lh.block i = headBlock (m.disk m.log.start) i := by
      intro i hi
      simp only [readHead, hview, if_pos hi]
    -- the header is the only buffer
    have hbuf {c : Nat} {v : Block} (hcv : m.readHead.cache c = some v) :
        c = m.log.start ∧ v = m.disk m.log.start := by
      by_cases hcb : c = m.log.start
      · subst hcb
        simp only [readHead, Machine.bread, update_self, Option.some.injEq, hview] at hcv
        exact ⟨rfl, hcv.symm⟩
      · simp [readHead, Machine.bread, update_of_ne hcb, hcache] at hcv
    refine
      { h with
        ctl := { h.ctl with quiet := fun _ => h.ctl.quiet hne,
                            committing := fun hr => by simp [Pc.recovering] at hr,
                            locked := ?_ }
        lhLen := ?_, lhSmall := ?_, lhDistinct := ?_, lhHome := ?_, coherent := ?_, clean := ?_
        keys := ?_, pinned := fun _ _ hp => hp.elim, phase := ?_ }
    · intro l hl
      have hl : l ∈ m.locks := hl
      simp [h.ctl.locks_nil hne] at hl
    · simp only [readHead, hview]
      exact h.headLen
    · simp only [readHead, hview, headCount]
      split <;> omega
    · intro i j hi hj he
      simp only [readHead, hview] at hi hj
      rw [hlh i hi, hlh j hj] at he
      have hnd := h.headDistinct
      rw [onDisk_keys] at hnd
      exact List.inj_on_of_nodup_map hnd (List.mem_range.mpr hi) (List.mem_range.mpr hj) he
    · rintro b ⟨i, hi, rfl⟩
      simp only [readHead, hview] at hi
      rw [hlh i hi]
      exact ⟨h.headHome i hi, Bytes.ld_lt _ 4 _⟩
    · intro c v _ hcv
      obtain ⟨rfl, rfl⟩ := hbuf hcv
      rfl
    · intro c v hin _ hcv
      obtain ⟨rfl, -⟩ := hbuf hcv
      exact absurd (inArea_start h.toCore) hin
    · intro u hu
      have hu : u ∈ m.cur := hu
      simp [hcur] at hu
    · refine ⟨hcur, Nat.zero_le _, ?_, ?_, fun _ hi => hnone rfl hi⟩
      · simp only [readHead, Machine.bread, hview]
      · intro i hi
        simp only [readHead, hview] at hi
        exact (hlh i hi).symm
  | recInstall tail =>
    rw [hpc] at hs hph
    have hne : m.pc ≠ .idle := by simp [hpc]
    dsimp only at hs
    split at hs
    · next ht =>
      cases hs
      obtain ⟨hcore, hinst, -⟩ := h.installOne hph (by simp [hpc]) ht
      exact { hcore.setPc hne (.inr (.inl rfl)) with
        pinned := fun _ _ hp => hp.elim, phase := hinst }
    · next ht =>
      cases hs
      exact { (h.toCore.clearCount hph.1).setPc hne (.inr (.inl rfl)) with
        pinned := fun _ _ hp => hp.elim
        phase := ⟨hph.1, rfl, fun b hb => h.toCore.disk_of_installed hph ht hb⟩ }
  | recClear =>
    rw [hpc] at hs hph
    obtain ⟨-, hn, hdisk⟩ := hph
    obtain ⟨hcore, h0⟩ := h.toCore.clearHead hn hdisk
    cases hs
    exact { hcore.setPc (show m.pc ≠ .idle by simp [hpc]) (.inl rfl) with
      pinned := fun _ hi => hnone hn hi, phase := h0 }

theorem inv_crash (hpos : 0 < m.log.size) (hlen : headCount (m.disk m.log.start) ≤ m.log.size - 1)
    (hnd : ((onDisk m.log.start m.disk).map Prod.fst).Nodup)
    (hhome : ∀ i, i < headCount (m.disk m.log.start) →
      ¬ m.log.InArea (headBlock (m.disk m.log.start) i))
    (hdur : ∀ b, ¬ m.log.InArea b → replay (onDisk m.log.start m.disk) m.disk b = m.durable d₀ b) :
    Inv d₀ m.crash where
  ctl :=
    { outstanding := rfl
      ids := List.nodup_nil
      quiet := fun _ => rfl
      committing := fun hr => by simp [Machine.crash, Pc.recovering] at hr
      locked := fun l hl => by simp [Machine.crash] at hl
      dirty := fun b hb => by simp [Machine.crash] at hb }
  sizePos := hpos
  lhLen := Nat.zero_le _
  lhSmall := by simp [Machine.crash]
  lhDistinct i _ hi := absurd hi (Nat.not_lt_zero i)
  lhHome b hb := absurd hb fun ⟨i, hi, _⟩ => Nat.not_lt_zero i hi
  headLen := hlen
  headDistinct := hnd
  headHome := hhome
  durable := hdur
  coherent b v _ hc := by simp [Machine.crash] at hc
  clean b v _ _ hc := by simp [Machine.crash] at hc
  keys u hu := by simp [Machine.crash] at hu
  pinned _ _ hp := hp.elim
  phase := ⟨rfl, rfl, fun _ => rfl⟩

theorem Inv.crash (h : Inv d₀ m) : Inv d₀ m.crash :=
  inv_crash h.sizePos h.headLen h.headDistinct h.headHome h.durable

theorem inv_boot {logstart nlog : Nat} (hn : 0 < nlog) (h0 : headCount (d₀ logstart) = 0) :
    Inv d₀ (boot d₀ logstart nlog) := by
  have hnil : onDisk logstart d₀ = [] := onDisk_of_count_zero h0
  refine inv_crash (m := boot d₀ logstart nlog) hn (h0.trans_le (Nat.zero_le _)) ?_ (fun i hi => ?_)
    fun b _ => ?_
  · simp [boot, hnil]
  · exact absurd (Nat.lt_of_lt_of_eq hi h0) (Nat.not_lt_zero _)
  · simp only [boot, hnil, replay_nil]
    rfl

end
end Machine
end ZeptOS.Log
