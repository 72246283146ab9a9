import ZeptOS.Fs.Files
import ZeptOS.Fs.Within

/-!
# What is given to the log

Beside the state stands a `Trace` of a run: the blocks that have been passed to `log_write`, and whether
a copy from the user has failed. Under the rules `noted` nothing is asked of the state, so that what is
proved with them holds for every superblock and every content of the disk: a piece of `filewrite` never logs more
blocks than a transaction has room for (`writei_fits_transaction`). What the functions change they log
(`Logs`), except where a copy fails.
-/

namespace ZeptOS.Fs

open Lib Lib.Code Function Finset

variable {t : Trace} {L : Finset Nat} {b off tot : Nat} {p : Proc} {B : Finset Nat → Prop}
  {s : State} {α : Type} {ip : Slot} {data : Block} {disk : Disk} {sb : Superblock}

structure Trace where
  log : Finset Nat
  fault : Bool

def Trace.after (t : Trace) : (o : Op) → o.Ans → Trace
  | .logWrite b, _ => { t with log := insert b t.log }
  | .copyin _ _, c => { t with fault := t.fault || c.fault.isSome }
  | _, _ => t

/-- Whatever is done, `B` is true of the blocks that have been logged. -/
def noted (p : Proc) (B : Finset Nat → Prop) : Rules sig (State × Trace) where
  allow g o := ∀ b, o = .logWrite b → B (insert b g.2.log)
  step := ((seq anyEnd p).noting Trace.after).step

/-- Run from `s` with the trace `t`, the code keeps to `B` and ends with `Q`, if it ends. -/
def Notes {α : Type} (p : Proc) (B : Finset Nat → Prop) (x : FsM α) (Q : α → State → Trace → Prop)
    (s : State) (t : Trace) : Prop :=
  x.Obeys (noted p B) (fun a g => Q a g.1 g.2) (s, t)

variable {Q : Unit → State → Trace → Prop}

section Rules

variable {β : Type}

theorem notes_pure {a : α} {Q : α → State → Trace → Prop} : Notes p B (pure a) Q s t ↔ Q a s t := Iff.rfl

theorem notes_bind {x : FsM α} {f : α → FsM β} {Q : β → State → Trace → Prop} :
    Notes p B (x >>= f) Q s t ↔ Notes p B x (fun a => Notes p B (f a) Q) s t :=
  Iff.of_eq (obeys_bind (noted p B) x f)

theorem Notes.mono {x : FsM α} {Q R : α → State → Trace → Prop} (h : Notes p B x R s t)
    (hRQ : ∀ a s' t', R a s' t' → Q a s' t') : Notes p B x Q s t :=
  Obeys.mono (noted p B) h fun a g => hRQ a g.1 g.2

theorem Notes.call {x : FsM α} {f : α → FsM β} {R : α → State → Trace → Prop}
    {Q : β → State → Trace → Prop} (h : Notes p B x R s t)
    (hf : ∀ a s' t', R a s' t' → Notes p B (f a) Q s' t') : Notes p B (x >>= f) Q s t :=
  notes_bind.2 (h.mono hf)

theorem notes_op {o : Op} {Q : o.Ans → State → Trace → Prop}
    (hB : ∀ b, o = .logWrite b → B (insert b t.log))
    (h : ∀ ω, match perform ω p s o with
      | .ok (r, s') => Q r s' (t.after o r)
      | .error _ => True) : Notes p B (op o) Q s t := by
  refine ⟨hB, ?_⟩
  rintro r ⟨s', t'⟩ ⟨⟨ω, -, he⟩, rfl⟩
  have hω := h ω
  rwa [he] at hω

/-- The disk and the copies of inodes are what they were. -/
def Alike (s s' : State) : Prop := s'.disk = s.disk ∧ s'.node = s.node

theorem notes_bread {Q : Block → State → Trace → Prop} (hq : ∀ s', Alike s s' → Q (s.disk b) s' t) :
    Notes p B (bread b) Q s t := by
  refine notes_op nofun fun ω => ?_
  simp only [perform]
  by_cases hb : s.buf b = none
  · rw [if_pos hb]
    exact hq _ ⟨rfl, rfl⟩
  · rw [if_neg hb]
    trivial

theorem notes_brelse (hq : ∀ s', Alike s s' → Q () s' t) : Notes p B (brelse b) Q s t := by
  refine notes_op nofun fun ω => ?_
  simp only [perform]
  by_cases hb : s.buf b = some p
  · rw [if_pos hb]
    exact hq _ ⟨rfl, rfl⟩
  · rw [if_neg hb]
    trivial

/-- **A block is stored and logged.** -/
theorem notes_write {f : Unit → FsM α} {Q : α → State → Trace → Prop} (hB : B (insert b t.log))
    (hq : ∀ s', s'.disk = update s.disk b data → s'.node = s.node →
      Notes p B (f ()) Q s' { t with log := insert b t.log }) :
    Notes p B (bstore b data >>= fun _ => logWrite b >>= f) Q s t := by
  refine notes_bind.2 (notes_op nofun fun ω => notes_bind.2 (notes_op (fun b' hb => ?_) fun ω' => ?_))
  · cases hb
    exact hB
  · simp only [perform]
    by_cases hT : ∀ q, (s.setDisk b data).begun q = 0
    · rw [if_pos hT]
      trivial
    · rw [if_neg hT]
      exact hq _ rfl rfl

theorem notes_node {Q : Node → State → Trace → Prop} (hq : Q (s.node ip) s t) :
    Notes p B (node ip) Q s t :=
  notes_op nofun fun _ => hq

theorem notes_ident {Q : Ident → State → Trace → Prop} (hq : Q (s.ident ip) s t) :
    Notes p B (ident ip) Q s t :=
  notes_op nofun fun _ => hq

theorem notes_enter {g : Fn} (hq : Q () s t) : Notes p B (enter g) Q s t :=
  notes_op nofun fun _ => hq

theorem notes_modifyNode {g : Dinode → Dinode}
    (hq : Q () (s.setNode ip { s.node ip with d := g (s.node ip).d }) t) :
    Notes p B (modifyNode ip g) Q s t :=
  notes_bind.2 (notes_node (notes_op nofun fun _ => hq))

theorem notes_panic {e : Panic} {Q : α → State → Trace → Prop} : Notes p B (panic e) Q s t :=
  ⟨nofun, nofun⟩

theorem notes_when {c : Prop} [Decidable c] {x : FsM Unit}
    (ht : c → Notes p B x Q s t) (hf : ¬c → Q () s t) : Notes p B (when c x) Q s t := by
  unfold when
  split
  · next hc => exact ht hc
  · next hc => exact hf hc

end Rules

/-! ## Blocks that are logged -/

/-- **What a function changes it logs**: blocks of the free map, and such others as it says. -/
structure Logs (sb : Superblock) (s : State) (t : Trace) (also : Nat → Prop) (s' : State) (t' : Trace) :
    Prop where
  mono : t.log ⊆ t'.log
  fault : t'.fault = t.fault
  new : ∀ b, b ∈ t'.log → b ∈ t.log ∨ (∃ x, x < sb.size ∧ b = sb.bblock x) ∨ also b
  disk : ∀ b, b ∉ t'.log → s'.disk b = s.disk b

variable {n : Nat}

variable {d : Dinode} {src : Src}

section Logs

variable {s' s'' : State} {t' t'' : Trace} {also also' : Nat → Prop} {a : Nat}

theorem Alike.refl (s : State) : Alike s s := ⟨rfl, rfl⟩

theorem Alike.trans (h : Alike s s') (h' : Alike s' s'') : Alike s s'' :=
  ⟨h'.1.trans h.1, h'.2.trans h.2⟩

theorem Alike.logs (h : Alike s s') (t : Trace) : Logs sb s t also s' t :=
  ⟨Finset.Subset.refl _, rfl, fun _ hb => .inl hb, fun b _ => congrFun h.1 b⟩

theorem Logs.trans (h : Logs sb s t also s' t') (h' : Logs sb s' t' also s'' t'') :
    Logs sb s t also s'' t'' where
  mono := h.mono.trans h'.mono
  fault := h'.fault.trans h.fault
  new b hb := by
    rcases h'.new b hb with hb | hb
    · exact h.new b hb
    · exact .inr hb
  disk b hb := (h'.disk b hb).trans (h.disk b fun hc => hb (h'.mono hc))

theorem Logs.weaken (h : Logs sb s t also s' t') (ha : ∀ b, also b → also' b) :
    Logs sb s t also' s' t' :=
  ⟨h.mono, h.fault, fun b hb => (h.new b hb).imp_right (Or.imp_right (ha b)), h.disk⟩

theorem logs_write (hd : s'.disk = update s.disk b data)
    (hb : (∃ x, x < sb.size ∧ b = sb.bblock x) ∨ also b) :
    Logs sb s t also s' { t with log := insert b t.log } where
  mono := subset_insert _ _
  fault := rfl
  new c hc := by
    rcases mem_insert.mp hc with rfl | hc
    · exact .inr hb
    · exact .inl hc
  disk c hc := by
    rw [hd, update_of_ne]
    rintro rfl
    exact hc (mem_insert_self _ _)

/-! ## `balloc` -/

theorem notes_bzero (hB : B (insert b t.log))
    (hq : ∀ s', s'.disk = update s.disk b (Bytes.fill 0) → s'.node = s.node →
      Q () s' { t with log := insert b t.log }) : Notes p B (bzero b) Q s t := by
  refine notes_bind.2 (notes_bread fun s₁ h₁ => ?_)
  refine notes_write hB fun s₂ hd hn => ?_
  refine notes_brelse fun s₃ h₃ => hq s₃ ?_ ?_
  · rw [h₃.1, hd, h₁.1]
  · rw [h₃.2, hn, h₁.2]

/-- What `balloc` logs: nothing, or a block of the free map and the block that it answers. -/
structure Took (sb : Superblock) (s : State) (t : Trace) (a : Nat) (s' : State) (t' : Trace) : Prop where
  logs : Logs sb s t (· = a) s' t'
  node : s'.node = s.node
  card : t'.log.card ≤ t.log.card + 2
  fresh : a ≠ 0 → a ∈ t'.log ∧ s'.disk a = Bytes.fill 0

theorem Took.of_alike (h : Alike s s') (h' : Took sb s' t a s'' t'') : Took sb s t a s'' t'' :=
  ⟨(h.logs t).trans h'.logs, h'.node.trans h.2, h'.card, h'.fresh⟩

def Fits (B : Finset Nat → Prop) (n : Nat) : Prop := ∀ L : Finset Nat, L.card ≤ n → B L

theorem notes_ballocFrom (hB : Fits B n) (hn : t.log.card + 2 ≤ n) (fuel b : Nat) :
    Notes p B (ballocFrom sb fuel b) (Took sb s t) s t := by
  induction fuel generalizing b s with
  | zero => exact ⟨(Alike.refl s).logs t, rfl, Nat.le_add_right _ _, fun h => absurd rfl h⟩
  | succ fuel ih =>
    unfold ballocFrom
    by_cases hb : b < sb.size
    · rw [if_pos hb]
      refine notes_bind.2 (notes_bread fun s₁ h₁ => ?_)
      split
      · next bi _ =>
        have hcard := card_insert_le (sb.bblock b) t.log
        have hcard' := card_insert_le (b + bi) (insert (sb.bblock b) t.log)
        refine notes_write (hB _ (by omega)) fun s₂ hd₂ hn₂ => ?_
        refine notes_bind.2 (notes_brelse fun s₃ h₃ => ?_)
        refine notes_bind.2 (notes_bzero (hB _ (by dsimp only; omega)) fun s₄ hd₄ hn₄ => ?_)
        refine ⟨?_, ?_, by dsimp only; omega, fun _ => ⟨mem_insert_self _ _, ?_⟩⟩
        · refine (h₁.logs t).trans ((logs_write hd₂ (.inl ⟨b, hb, rfl⟩)).trans ?_)
          exact (h₃.logs _).trans (logs_write hd₄ (.inr rfl))
        · rw [hn₄, h₃.2, hn₂, h₁.2]
        · rw [hd₄, update_self]
      · refine notes_bind.2 (notes_brelse fun s₂ h₂ => ?_)
        exact (ih (b + BPB)).mono fun a s' t' h => h.of_alike (h₁.trans h₂)
    · rw [if_neg hb]
      exact ⟨(Alike.refl s).logs t, rfl, Nat.le_add_right _ _, fun h => absurd rfl h⟩

theorem notes_balloc (hB : Fits B n) (hn : t.log.card + 2 ≤ n) :
    Notes p B (balloc sb) (Took sb s t) s t :=
  notes_ballocFrom hB hn _ _

/-! ## `bmap` -/

variable {addr j bn : Nat}

theorem notes_bmapIndirect_there (h0 : word (s.disk addr) j ≠ 0) :
    Notes p B (bmapIndirect sb addr j)
      (fun a s' t' => a = word (s.disk addr) j ∧ Alike s s' ∧ t' = t) s t := by
  refine notes_bind.2 (notes_bread fun s₁ h₁ => ?_)
  dsimp only
  rw [if_neg h0]
  refine notes_bind.2 (notes_brelse fun s₂ h₂ => ?_)
  exact ⟨rfl, h₁.trans h₂, rfl⟩

/-- What is logged for a new block in the indirect block. -/
structure Filled (sb : Superblock) (s : State) (t : Trace) (addr a : Nat) (s' : State) (t' : Trace) :
    Prop where
  logs : Logs sb s t (fun b => b = a ∨ b = addr) s' t'
  node : s'.node = s.node
  card : t'.log.card ≤ (insert addr t.log).card + 2
  none : a = 0 → t'.log.card ≤ t.log.card + 2
  fresh : a ≠ 0 → a ∈ t'.log ∧ addr ∈ t'.log

theorem notes_bmapIndirect_new (hB : Fits B n) (hn : (insert addr t.log).card + 2 ≤ n)
    (h0 : word (s.disk addr) j = 0) :
    Notes p B (bmapIndirect sb addr j) (Filled sb s t addr) s t := by
  have hle : t.log.card ≤ (insert addr t.log).card := card_le_card (subset_insert _ _)
  refine notes_bind.2 (notes_bread fun s₁ h₁ => ?_)
  dsimp only
  rw [if_pos h0]
  refine (notes_balloc hB (by omega)).call fun a s₂ t₂ h₂ => ?_
  have hlogs : Logs sb s t (fun b => b = a ∨ b = addr) s₂ t₂ :=
    ((h₁.logs t).trans h₂.logs).weaken fun b hb => .inl hb
  have hnode : s₂.node = s.node := h₂.node.trans h₁.2
  have hcard := h₂.card
  by_cases ha : a = 0
  · refine notes_bind.2 (notes_when (fun hc => absurd ha hc) fun _ => ?_)
    refine notes_bind.2 (notes_brelse fun s₃ h₃ => ?_)
    exact notes_pure.2 ⟨hlogs.trans (h₃.logs _), h₃.2.trans hnode, by omega, fun _ => hcard,
      fun hc => absurd ha hc⟩
  · obtain ⟨hin, -⟩ := h₂.fresh ha
    -- the block of the inode may have been logged before
    have hcard' : (insert addr t₂.log).card ≤ (insert addr t.log).card + 2 := by
      by_cases hmem : addr ∈ t.log
      · rw [insert_eq_of_mem hmem, insert_eq_of_mem (h₂.logs.mono hmem)]
        exact hcard
      · rw [card_insert_of_notMem hmem]
        have := card_insert_le addr t₂.log
        omega
    refine notes_bind.2 (notes_when (fun _ => ?_) fun hc => absurd ha hc)
    refine notes_write (f := fun _ => pure ()) (hB _ (by omega)) fun s₃ hd₃ hn₃ => ?_
    refine notes_bind.2 (notes_brelse fun s₄ h₄ => ?_)
    refine ⟨?_, ?_, hcard', fun hc => absurd hc ha,
      fun _ => ⟨mem_insert_of_mem hin, mem_insert_self _ _⟩⟩
    · exact hlogs.trans ((logs_write hd₃ (.inr (.inr rfl))).trans (h₄.logs _))
    · rw [h₄.2, hn₃, hnode]

theorem mapped_direct (h : bn < NDIRECT) : mapped disk d bn = d.addrs bn := by
  rw [mapped, place, if_pos h, entry_direct (Nat.le_of_lt h)]

theorem mapped_indirect (h : d.addrs NDIRECT ≠ 0) :
    mapped disk d (NDIRECT + j) = word (disk (d.addrs NDIRECT)) j := by
  rw [mapped, place, if_neg (by omega), show NDIRECT + j + 1 = NDIRECT + 1 + j by omega, entry_word h]

theorem notes_bmap_there (h0 : mapped s.disk (s.node ip).d bn ≠ 0) : Notes p B (bmap sb ip bn)
      (fun a s' t' => a = mapped s.disk (s.node ip).d bn ∧ Alike s s' ∧ t' = t) s t := by
  unfold bmap
  by_cases hd : bn < NDIRECT
  · rw [mapped_direct hd] at h0 ⊢
    rw [if_pos hd]
    refine notes_bind.2 (notes_node ?_)
    rw [if_neg h0]
    exact ⟨rfl, .refl s, rfl⟩
  · rw [if_neg hd]
    by_cases hlt : bn - NDIRECT < NINDIRECT
    · rw [if_pos hlt]
      obtain ⟨j, rfl⟩ := Nat.exists_eq_add_of_le (Nat.le_of_not_lt hd)
      have hi0 : (s.node ip).d.addrs NDIRECT ≠ 0 := by
        intro he
        rw [mapped, place, if_neg hd, show NDIRECT + j + 1 = NDIRECT + 1 + j by omega,
          entry_noWord he] at h0
        exact h0 rfl
      rw [mapped_indirect hi0] at h0 ⊢
      refine notes_bind.2 (notes_node ?_)
      rw [if_neg hi0, Nat.add_sub_cancel_left]
      exact notes_bmapIndirect_there h0
    · rw [if_neg hlt]
      exact notes_panic

def due (d : Dinode) (L : Finset Nat) : Nat :=
  if d.addrs NDIRECT ≠ 0 ∧ d.addrs NDIRECT ∈ L then 0 else 2

theorem due_of_mem (h0 : d.addrs NDIRECT ≠ 0) (h : d.addrs NDIRECT ∈ L) :
    due d L = 0 := if_pos ⟨h0, h⟩

theorem due_le (d : Dinode) (L : Finset Nat) : due d L ≤ 2 := by
  unfold due
  split <;> omega

theorem due_mono {d' : Dinode} {L' : Finset Nat} (hd : d'.addrs NDIRECT = d.addrs NDIRECT)
    (hL : L ⊆ L') : due d' L' ≤ due d L := by
  by_cases hc : d.addrs NDIRECT ≠ 0 ∧ d.addrs NDIRECT ∈ L
  · rw [due_of_mem (hd ▸ hc.1) (hd ▸ hL hc.2)]
    exact Nat.zero_le _
  · rw [show due d L = 2 from if_neg hc]
    exact due_le _ _

structure Mapped (sb : Superblock) (s : State) (t : Trace) (ip : Slot) (a : Nat) (s' : State) (t' : Trace) :
    Prop where
  logs : Logs sb s t (fun b => b = a ∨ b = (s'.node ip).d.addrs NDIRECT) s' t'
  card : t'.log.card + due (s'.node ip).d t'.log ≤ t.log.card + due (s.node ip).d t.log + 2
  fresh : a ≠ 0 → a ∈ t'.log

theorem Filled.mapped (h : Filled sb s t addr a s' t') (hi : (s.node ip).d.addrs NDIRECT = addr)
    (hi0 : addr ≠ 0) : Mapped sb s t ip a s' t' := by
  have hnode : (s'.node ip).d.addrs NDIRECT = addr := by rw [h.node, hi]
  have hcard := h.card
  have hmono : due (s'.node ip).d t'.log ≤ due (s.node ip).d t.log :=
    due_mono (hnode.trans hi.symm) h.logs.mono
  refine ⟨by rw [hnode]; exact h.logs, ?_, fun ha => (h.fresh ha).1⟩
  by_cases ha : a = 0
  · have := h.none ha
    omega
  · rw [due_of_mem (hnode.symm ▸ hi0) (hnode.symm ▸ (h.fresh ha).2)]
    by_cases hmem : addr ∈ t.log
    · rw [insert_eq_of_mem hmem] at hcard
      omega
    · have hdue : due (s.node ip).d t.log = 2 := if_neg fun hc => hmem (hi ▸ hc.2)
      have := card_insert_le addr t.log
      omega

theorem notes_bmap_new (hB : Fits B n) (hn : t.log.card + due (s.node ip).d t.log + 2 ≤ n)
    (h0 : mapped s.disk (s.node ip).d bn = 0) :
    Notes p B (bmap sb ip bn) (Mapped sb s t ip) s t := by
  -- `balloc` for an address, and the node after it
  have htook {k a : Nat} {s₁ : State} {t₁ : Trace} (h : Took sb s t a s₁ t₁) :
      (((s₁.setNode ip { s₁.node ip with d := { (s₁.node ip).d with
        addrs := update (s₁.node ip).d.addrs k a } }).node ip).d.addrs) =
      update (s.node ip).d.addrs k a := by
    simp [State.setNode, h.node]
  unfold bmap
  by_cases hd : bn < NDIRECT
  · rw [mapped_direct hd] at h0
    rw [if_pos hd]
    refine notes_bind.2 (notes_node ?_)
    dsimp only
    rw [if_pos h0]
    refine (notes_balloc hB (by omega)).call fun a s₁ t₁ h₁ => ?_
    have hlogs := h₁.logs
    have hcard := h₁.card
    by_cases ha : a = 0
    · rw [if_pos ha]
      refine notes_pure.2 ⟨?_, ?_, fun hc => absurd rfl hc⟩
      · rw [ha] at hlogs
        exact hlogs.weaken fun b hb => .inl hb
      · have := due_mono (congrArg (fun f => (f ip).d.addrs NDIRECT) h₁.node) hlogs.mono
        omega
    · rw [if_neg ha]
      refine notes_bind.2 (notes_modifyNode ?_)
      refine notes_pure.2 ⟨⟨hlogs.mono, hlogs.fault, fun b hb => ?_, hlogs.disk⟩, ?_,
        fun _ => (h₁.fresh ha).1⟩
      · exact (hlogs.new b hb).imp_right (Or.imp_right .inl)
      · have hsame := congrFun (htook (k := bn) h₁) NDIRECT
        rw [update_of_ne (Nat.ne_of_gt hd)] at hsame
        exact (Nat.add_le_add hcard (due_mono hsame hlogs.mono)).trans (by omega)
  · rw [if_neg hd]
    by_cases hlt : bn - NDIRECT < NINDIRECT
    · rw [if_pos hlt]
      obtain ⟨j, rfl⟩ := Nat.exists_eq_add_of_le (Nat.le_of_not_lt hd)
      rw [Nat.add_sub_cancel_left]
      refine notes_bind.2 (notes_node ?_)
      dsimp only
      by_cases hi0 : (s.node ip).d.addrs NDIRECT = 0
      · rw [if_pos hi0]
        have hdue : due (s.node ip).d t.log = 2 := if_neg fun hc => hc.1 hi0
        refine (notes_balloc hB (by omega)).call fun a s₁ t₁ h₁ => ?_
        have hlogs := h₁.logs
        have hcard := h₁.card
        by_cases ha : a = 0
        · rw [if_pos ha]
          refine notes_pure.2 ⟨?_, ?_, fun hc => absurd rfl hc⟩
          · rw [ha] at hlogs
            exact hlogs.weaken fun b hb => .inl hb
          · have := due_le (s₁.node ip).d t₁.log
            omega
        · rw [if_neg ha]
          obtain ⟨hmem, hzero⟩ := h₁.fresh ha
          refine notes_bind.2 (notes_modifyNode ?_)
          have hind := congrFun (htook (k := NDIRECT) h₁) NDIRECT
          rw [update_self] at hind
          -- the new indirect block has no words
          refine (notes_bmapIndirect_new hB ?_ ?_).mono fun a' s' t' h' => ?_
          · rw [insert_eq_of_mem hmem]
            omega
          · rw [show (s₁.setNode ip _).disk = s₁.disk from rfl, hzero, word_zero]
          · have hm := h'.mapped hind ha
            have hcard' := hm.card
            rw [show due ((s₁.setNode ip _).node ip).d t₁.log = 0 from
              due_of_mem (hind.symm ▸ ha) (hind.symm ▸ hmem)] at hcard'
            have hind' : (s'.node ip).d.addrs NDIRECT = a :=
              (congrArg (fun f => (f ip).d.addrs NDIRECT) h'.node).trans hind
            refine ⟨?_, by omega, hm.fresh⟩
            rw [hind']
            refine (hlogs.weaken fun b hb => .inr hb).trans ?_
            exact ⟨h'.logs.mono, h'.logs.fault, h'.logs.new, h'.logs.disk⟩
      · rw [if_neg hi0]
        rw [mapped_indirect hi0] at h0
        have hcard := card_insert_le ((s.node ip).d.addrs NDIRECT) t.log
        refine (notes_bmapIndirect_new hB ?_ h0).mono fun a s' t' h => h.mapped rfl hi0
        by_cases hmem : (s.node ip).d.addrs NDIRECT ∈ t.log
        · rw [insert_eq_of_mem hmem]
          omega
        · rw [show due (s.node ip).d t.log = 2 from if_neg fun hc => hmem hc.2] at hn
          omega
    · rw [if_neg hlt]
      exact notes_panic

/-! ## The loop of `writei` -/

theorem notes_eitherCopyin {m : Nat} {Q : Copied → State → Trace → Prop}
    (hq : ∀ c t', t'.log = t.log → Q c s t') : Notes p B (eitherCopyin src tot m) Q s t := by
  cases src with
  | kernel bs => exact hq _ _ rfl
  | user a => exact notes_op nofun fun ω => hq _ _ rfl

/-- What has been spent, with what the indirect block may still cost. -/
def spent (s : State) (ip : Slot) (t : Trace) : Nat := t.log.card + due (s.node ip).d t.log

def Trace.add (t : Trace) (a : Nat) : Trace := { t with log := insert a t.log }

theorem spent_add (s : State) (ip : Slot) (t : Trace) (a : Nat) : spent s ip (t.add a) ≤ spent s ip t + 1 := by
  have hcard := card_insert_le a t.log
  have hdue : due (s.node ip).d (insert a t.log) ≤ due (s.node ip).d t.log :=
    due_mono rfl (subset_insert _ _)
  unfold spent Trace.add
  dsimp only
  omega

theorem spent_congr (h : s'.node = s.node) (ht : t'.log = t.log) : spent s' ip t' = spent s ip t := by
  unfold spent
  rw [h, ht]

/-- **A block of a file costs two**: itself, and one of the free map if it is new. -/
theorem notes_bmap (hB : Fits B n) (hn : spent s ip t + 2 ≤ n) :
    Notes p B (bmap sb ip bn) (fun a s' t' => spent s' ip t' ≤ spent s ip t + 2 ∧
      (a ≠ 0 → spent s' ip (t'.add a) ≤ spent s ip t + 2)) s t := by
  by_cases h0 : mapped s.disk (s.node ip).d bn = 0
  · refine (notes_bmap_new hB hn h0).mono fun a s' t' h => ⟨h.card, fun ha => ?_⟩
    unfold Trace.add
    rw [insert_eq_of_mem (h.fresh ha)]
    exact h.card
  · refine (notes_bmap_there h0).mono ?_
    rintro a s' t' ⟨-, hs, rfl⟩
    have hsame : spent s' ip t' = spent s ip t' := spent_congr hs.2 rfl
    have hadd := spent_add s' ip t' a
    exact ⟨by omega, fun _ => by omega⟩

theorem notes_chunk {m lo : Nat} {stop next : FsM α} {Q : α → State → Trace → Prop} (hB : Fits B n)
    (hn : (insert a t.log).card ≤ n)
    (hstop : ∀ s' t', s'.node = s.node → t'.log = t.log → Notes p B stop Q s' t')
    (hnext : ∀ s' t', s'.node = s.node → t'.log = (t.add a).log → Notes p B next Q s' t') :
    Notes p B (do
      let data ← bread a
      let c ← eitherCopyin src tot m
      match c.fault with
      | some k =>
        bstore a (data.blit lo (c.bytes.slice 0 (min k m)))
        brelse a
        stop
      | none =>
        bstore a (data.blit lo (c.bytes.slice 0 m))
        logWrite a
        brelse a
        next) Q s t := by
  refine notes_bind.2 (notes_bread fun s₁ h₁ => ?_)
  refine notes_bind.2 (notes_eitherCopyin fun c t' ht => ?_)
  split
  · refine notes_bind.2 (notes_op nofun fun ω => ?_)
    refine notes_bind.2 (notes_brelse fun s₂ h₂ => hstop _ _ ?_ ht)
    rw [h₂.2]
    exact h₁.2
  · refine notes_write (hB _ (by rwa [ht])) fun s₂ hd₂ hn₂ => ?_
    refine notes_bind.2 (notes_brelse fun s₃ h₃ => hnext _ _ ?_ ?_)
    · rw [h₃.2, hn₂, h₁.2]
    · show insert a t'.log = insert a t.log
      rw [ht]

theorem notes_writeiFrom {fuel k N : Nat} (hB : Fits B N) (hN : spent s ip t + 2 * k ≤ N)
    (hk : n - tot ≤ k * BSIZE) (hoff : off % BSIZE = 0 ∨ n ≤ tot) :
    Notes p B (writeiFrom sb ip src n fuel tot off) (fun _ _ t' => t'.log.card ≤ N) s t := by
  have hcard (s : State) (t : Trace) : t.log.card ≤ spent s ip t := Nat.le_add_right _ _
  induction fuel generalizing s t tot off k with
  | zero =>
    have := hcard s t
    exact notes_pure.2 (by omega)
  | succ fuel ih =>
    unfold writeiFrom
    by_cases hlt : tot < n
    · rw [if_pos hlt]
      obtain ⟨k, rfl⟩ : ∃ k', k = k' + 1 := Nat.exists_eq_succ_of_ne_zero (by rintro rfl; omega)
      have hoff' : off % BSIZE = 0 := hoff.resolve_right (by omega)
      refine (notes_bmap hB (by omega)).call fun a s₁ t₁ h₁ => ?_
      have hc₁ := hcard s₁ t₁
      by_cases ha : a = 0
      · rw [if_pos ha]
        exact notes_pure.2 (by omega)
      · rw [if_neg ha]
        have hadd := h₁.2 ha
        have hroom : (t₁.add a).log.card ≤ N := (hcard s₁ _).trans (by omega)
        refine notes_chunk hB hroom (fun s₂ t₂ hs ht => notes_pure.2 ?_) fun s₂ t₂ hs ht => ?_
        · rw [ht]
          omega
        · have hsame : spent s₂ ip t₂ = spent s₁ ip (t₁.add a) := spent_congr hs ht
          rw [Nat.add_mul, Nat.one_mul] at hk
          rw [hoff', Nat.sub_zero]
          refine ih (k := k) (by omega) (by omega) ?_
          by_cases hlast : n - tot ≤ BSIZE
          · exact .inr (by omega)
          · rw [Nat.min_eq_right (by omega), Nat.add_mod_right]
            exact .inl hoff'
    · rw [if_neg hlt]
      have := hcard s t
      exact notes_pure.2 (by omega)

theorem notes_iupdate
    (hB : ∀ b, B (insert b t.log)) (hq : ∀ s' t', Q () s' t') : Notes p B (iupdate sb ip) Q s t := by
  refine notes_bind.2 (notes_ident ?_)
  refine notes_bind.2 (notes_bread fun s₁ _ => ?_)
  refine notes_bind.2 (notes_node ?_)
  refine notes_write (hB _) fun s₂ _ _ => ?_
  exact notes_brelse fun s₃ _ => hq _ _

/-- The loop as a whole. Only the first block may be begun in the middle, and then it is there. -/
theorem notes_writeiFrom_first
    (hfull : ∀ bn, bn * BSIZE < (s.node ip).d.size → mapped s.disk (s.node ip).d bn ≠ 0)
    (hoff : off ≤ (s.node ip).d.size) (hn : n ≤ maxWrite) (hB : Fits B (MAXOPBLOCKS - 1))
    (ht : t.log = ∅) :
    Notes p B (writeiFrom sb ip src n n 0 off) (fun _ _ t' => t'.log.card ≤ MAXOPBLOCKS - 1) s t := by
  have hmax : maxWrite = 3 * BSIZE := rfl
  have hops : MAXOPBLOCKS = 10 := rfl
  have hspent : spent s ip t ≤ 2 := by
    unfold spent
    rw [ht, card_empty, Nat.zero_add]
    exact due_le _ _
  by_cases hal : off % BSIZE = 0
  · exact notes_writeiFrom (k := 3) hB (by omega) (by omega) (.inl hal)
  · have hdm := Nat.div_add_mod off BSIZE
    have hmod := mod_BSIZE_lt off
    have h0 := hfull (off / BSIZE) (by rw [Nat.mul_comm]; omega)
    cases n with
    | zero =>
      refine notes_pure.2 ?_
      rw [ht]
      exact Nat.zero_le _
    | succ n =>
      unfold writeiFrom
      rw [if_pos (Nat.succ_pos n)]
      refine (notes_bmap_there h0).call ?_
      rintro a s₁ t₁ ⟨rfl, hs₁, rfl⟩
      rw [if_neg h0]
      have hadd := spent_add s₁ ip t₁ (mapped s.disk (s.node ip).d (off / BSIZE))
      rw [show spent s₁ ip t₁ = spent s ip t₁ from spent_congr hs₁.2 rfl] at hadd
      have hroom : (t₁.add (mapped s.disk (s.node ip).d (off / BSIZE))).log.card ≤ MAXOPBLOCKS - 1 :=
        (Nat.le_add_right _ _).trans (hadd.trans (by omega))
      refine notes_chunk hB hroom (fun s₂ t₂ hs ht' => notes_pure.2 ?_) fun s₂ t₂ hs ht' => ?_
      · rw [ht', ht]
        exact Nat.zero_le _
      · have hsame : spent s₂ ip t₂ = spent s₁ ip (t₁.add _) := spent_congr hs ht'
        refine notes_writeiFrom (k := 3) hB (by omega) (by omega) ?_
        by_cases hlast : n + 1 ≤ BSIZE - off % BSIZE
        · exact .inr (by omega)
        · refine .inl ?_
          rw [Nat.sub_zero, Nat.min_eq_right (by omega),
            show off + (BSIZE - off % BSIZE) = BSIZE * (off / BSIZE + 1) by rw [Nat.mul_add]; omega]
          exact Nat.mul_mod_right _ _

end Logs

/-! ## One piece of `filewrite` -/

/-- **A piece of `filewrite` fits a transaction**: however the disk is laid out and whatever the free
map says, it never logs more blocks than `begin_op` has reserved. -/
theorem writei_fits_transaction {src : Src} {off n : Nat}
    (hfull : ∀ bn, bn * BSIZE < (s.node ip).d.size → mapped s.disk (s.node ip).d bn ≠ 0)
    (hoff : off ≤ (s.node ip).d.size) (hn : n ≤ maxWrite) :
    Notes p (fun L => L.card ≤ MAXOPBLOCKS) (writei sb ip src off n) (fun _ _ _ => True) s
      ⟨∅, false⟩ := by
  unfold writei
  refine notes_bind.2 (notes_enter (notes_bind.2 (notes_node ?_)))
  dsimp only
  split
  · trivial
  · split
    · trivial
    · refine (notes_writeiFrom_first hfull hoff hn (fun L hL => ?_) rfl).call fun r s₁ t₁ h₁ => ?_
      · exact Nat.le_succ_of_le hL
      · have hlast (s' : State) : Notes p (fun L => L.card ≤ MAXOPBLOCKS) (iupdate sb ip >>= fun _ =>
            pure (r.1 : Int)) (fun _ _ _ => True) s' t₁ := by
          refine notes_bind.2 (notes_iupdate (fun b => ?_) fun _ _ => trivial)
          exact (card_insert_le b t₁.log).trans (Nat.succ_le_succ h₁)
        refine notes_bind.2 (notes_node (notes_bind.2 (notes_when (fun _ => ?_) fun _ => hlast _)))
        exact notes_modifyNode (hlast _)

/-- Three blocks from the middle of the only block of a file on. -/
theorem writei_fits_transaction_tiny :
    Notes 0 (fun L => L.card ≤ MAXOPBLOCKS) (writei tiny 0 (.user 0) 100 (3 * BSIZE))
      (fun _ _ _ => True) tinyState ⟨∅, false⟩ := by
  refine writei_fits_transaction (fun bn hbn => ?_) (by decide) le_rfl
  obtain rfl : bn = 0 := by
    have : bn * 1024 < 1024 := hbn
    omega
  decide

end ZeptOS.Fs
