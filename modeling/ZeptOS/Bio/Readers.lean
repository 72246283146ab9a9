import ZeptOS.Bio.Cache
import ZeptOS.Param

/-!
# Readers and the number of buffers

A process that reads a block has one buffer from `bget` to the end of `brelse`. If the buffers are
fewer than the processes, every buffer can have its process when one more calls `bget`, and that
one panics; the disk need not have answered anybody yet.
-/

namespace ZeptOS.Bio

open Lib

variable {n : Nat} {P D : Type} {c c' : Cache n P D} {p p' : P} {b b' : Fin n} {req : Req n D}
variable {dev blockno : Nat}

/-- A process that has no buffer calls `bread`, one that has one calls `brelse`. -/
def Req.reader (c : Cache n P D) (p : P) : Req n D → Prop
  | .bread _ _ => ∀ b, (c.buf b).owner ≠ some p
  | .brelse _ | .go => True
  | _ => False

/-- The process has chosen the buffer and is not through with it. -/
def Cache.Has (c : Cache n P D) (p : P) (b : Fin n) : Prop :=
  (c.buf b).owner = some p ∨ (c.pc p).uses = some b

structure Single (c : Cache n P D) : Prop where
  one : ∀ p b b', c.Has p b → c.Has p b' → b = b'
  pins : ∀ b, c.pins b = 0

section Single

variable [DecidableEq P]

theorem Step.has (hs : Step c p req c') (hreq : req.reader c p) (h : c'.Has p' b) :
    c.Has p' b ∨ p' = p ∧ c'.pc p = .lock b ∧ ∀ b', ¬ c.Has p b' := by
  rcases h with ho | hu
  · rcases hs.owner_of ho with ho | ⟨rfl, hp⟩
    · exact .inl (.inl ho)
    · exact .inl (.inr (by rw [hp]; rfl))
  · by_cases hne : p' = p
    · subst hne
      cases hs with
      | @hit r dev blockno b₀ hp hb | @recycle r dev blockno b₀ hp hmiss hb =>
        rw [goto_pc_self] at hu
        cases hu
        refine .inr ⟨rfl, goto_pc_self, fun b' hb' => ?_⟩
        rcases hb' with ho | hu
        · exact hreq b' ho
        · simp [hp, Pc.uses] at hu
      | brelse hp ho =>
        rw [goto_pc_self] at hu
        cases hu
        exact .inl (.inl ho)
      | store hp ho => exact hreq.elim
      | bwrite hp ho => exact hreq.elim
      | bpin hp => exact hreq.elim
      | bunpin hp => exact hreq.elim
      | acquire hp ho => simp [Pc.uses] at hu
      | fill hp => simp [Bio.fill, Pc.uses] at hu
      | drop hp => simp [Bio.drop, Pc.uses, Cache.goto] at hu
    · rw [hs.pc_other hne] at hu
      exact .inl (.inr hu)

theorem Single.step (S : Single c) (hs : Step c p req c') (hreq : req.reader c p) : Single c' where
  one p' b b' h h' := by
    rcases hs.has hreq h with h₁ | ⟨rfl, hpc, hno⟩ <;> rcases hs.has hreq h' with h₂ | ⟨he, hpc', hno'⟩
    · exact S.one p' b b' h₁ h₂
    · exact absurd (he ▸ h₁) (hno' b)
    · exact absurd h₂ (hno b')
    · cases hpc.symm.trans hpc'
      rfl
  pins b := by
    cases hs with
    | bpin hp => exact hreq.elim
    | bunpin hp => exact hreq.elim
    | _ => exact S.pins b

omit [DecidableEq P] in
theorem Single.of_boot (h : Boot c) : Single c where
  one p b b' hb := by
    rcases hb with ho | hu
    · rw [(h.buf b).2.2.2.1] at ho
      cases ho
    · rw [h.pc p] at hu
      cases hu
  pins := h.pins

omit [DecidableEq P] in
theorem Req.reader.paired (h : req.reader c p) : req.paired c := by
  cases req <;> trivial

end Single

/-! ## Too few processes -/

section Few

variable [Fintype P] [DecidableEq P]

def Readers (c : Cache n P D) : Prop := Reach Boot step (fun c a => a.2.reader c a.1) c

theorem Readers.inv (hr : Readers c) : Inv c :=
  hr.invariant (fun _ => .of_boot) fun _ _ _ I hreq hs => I.step hreq.paired (.of_step hs)

omit [Fintype P] in
theorem Readers.single (hr : Readers c) : Single c :=
  hr.invariant (fun _ => .of_boot) fun _ _ _ S hreq hs => S.step (.of_step hs) hreq

theorem Readers.has_of_refcnt (hr : Readers c) (hb : (c.buf b).refcnt ≠ 0) : ∃ p, c.Has p b := by
  by_contra hno
  have ho : (c.buf b).owner = none := by
    cases ho : (c.buf b).owner with
    | none => rfl
    | some p => exact absurd ⟨p, .inl ho⟩ hno
  have hu : c.users b = ∅ := by
    refine Finset.filter_eq_empty_iff.mpr fun p _ hp => hno ⟨p, .inr hp⟩
  apply hb
  rw [hr.inv.count b, Cache.refs, ho, hu, hr.single.pins b]
  rfl

/-- If every buffer has its process and one more process has none, there are more processes. -/
theorem Readers.card_of_panic (hr : Readers c) {e : Panic} {r : Option (Fin n)}
    (hp : c.pc p = .out r) (hreq : (Req.bread dev blockno : Req n D).reader c p)
    (hs : bget c p dev blockno = .panic e) : n < Fintype.card P := by
  have hall := (hr.inv.bget_panic hs).2
  choose f hf using fun b => hr.has_of_refcnt (hall b)
  have hinj : Function.Injective f := fun b b' he => hr.single.one (f b) b b' (hf b) (he ▸ hf b')
  have hnot : p ∉ Set.range f := by
    rintro ⟨b, rfl⟩
    rcases hf b with ho | hu
    · exact hreq b ho
    · simp [hp, Pc.uses] at hu
  simpa using Fintype.card_lt_of_injective_of_notMem f hinj hnot

end Few

/-! ## Too many -/

section Many

variable [Fintype P] [DecidableEq P] {f : Fin (n + 1) → P} {k : Nat}

/-- The first `k` processes have called `bread`, each for a block of its own. -/
structure Crowd (c : Cache n P D) (f : Fin (n + 1) → P) (k : Nat) : Prop where
  run : Readers c
  buf : ∀ b, (c.buf b).dev = 0 ∧ (c.buf b).refcnt = 0 ∨
    (c.buf b).dev = 1 ∧ (c.buf b).blockno < k ∧ (c.buf b).refcnt = 1
  owner : ∀ b, (c.buf b).owner = none
  card : (Finset.univ.filter fun b => (c.buf b).dev = 1).card = k
  pc : ∀ j : Fin (n + 1), k ≤ j → c.pc (f j) = .out none

omit [Fintype P] in
theorem Crowd.of_boot (h : Boot c) : Crowd c f 0 where
  run := .start h
  buf b := .inl ⟨(h.buf b).1, (h.buf b).2.2.2.2⟩
  owner b := (h.buf b).2.2.2.1
  card := by simp [(h.buf _).1]
  pc j _ := h.pc _

omit [Fintype P] in
theorem Crowd.miss (C : Crowd c f k) (b : Fin n) :
    ¬ ((c.buf b).dev = 1 ∧ (c.buf b).blockno = k) := by
  rcases C.buf b with ⟨h, -⟩ | ⟨-, h, -⟩
  · omega
  · omega

omit [Fintype P] in
theorem Crowd.reader (C : Crowd c f k) : (Req.bread dev blockno : Req n D).reader c p := by
  intro b ho
  rw [C.owner b] at ho
  cases ho

omit [Fintype P] in
theorem Crowd.card_of_used (C : Crowd c f k) (hall : ∀ b, (c.buf b).refcnt ≠ 0) : k = n := by
  have huniv : (Finset.univ.filter fun b => (c.buf b).dev = 1) = Finset.univ :=
    Finset.filter_true_of_mem fun b _ => by
      rcases C.buf b with ⟨-, h⟩ | ⟨h, -⟩
      · exact absurd h (hall b)
      · exact h
  rw [← C.card, huniv, Finset.card_univ, Fintype.card_fin]

theorem Crowd.next (C : Crowd c f k) (hf : Function.Injective f) (hk : k < n) :
    ∃ c' : Cache n P D, Crowd c' f (k + 1) := by
  have hpc := C.pc ⟨k, by omega⟩ (Nat.le_refl k)
  have hstep : step c (f ⟨k, by omega⟩, .bread 1 k) = bget c (f ⟨k, by omega⟩) 1 k := by
    simp only [step, hpc]
  rcases C.run.inv.bget_miss (f ⟨k, by omega⟩) C.miss with ⟨b, hb, hs⟩ | ⟨hall, -⟩
  · have h0 : (c.buf b).dev = 0 := by
      rcases C.buf b with ⟨h, -⟩ | ⟨-, -, h⟩
      · exact h
      · rw [hb] at h
        cases h
    have hreq : (Req.bread 1 k : Req n D).reader c (f ⟨k, by omega⟩) := C.reader
    refine ⟨_, C.run.step (a := (_, .bread 1 k)) hreq (hstep.trans hs),
      fun b' => ?_, fun b' => ?_, ?_, fun j hj => ?_⟩
    · by_cases hbb : b' = b
      · subst hbb
        exact .inr (by simp)
      · rw [goto_buf, modify_buf_of_ne hbb]
        rcases C.buf b' with h | ⟨h1, h2, h3⟩
        · exact .inl h
        · exact .inr ⟨h1, by omega, h3⟩
    · by_cases hbb : b' = b
      · subst hbb
        simpa using C.owner b'
      · rw [goto_buf, modify_buf_of_ne hbb]
        exact C.owner b'
    · have hnot : b ∉ Finset.univ.filter fun b => (c.buf b).dev = 1 := by simp [h0]
      refine Eq.trans (congrArg Finset.card (Finset.ext fun b' => ?_))
        ((Finset.card_insert_of_notMem hnot).trans (congrArg Nat.succ C.card))
      rw [Finset.mem_insert, Finset.mem_filter, Finset.mem_filter]
      by_cases hbb : b' = b
      · subst hbb
        simp
      · simp [modify_buf_of_ne hbb, hbb]
    · rw [goto_pc_of_ne, modify_pc]
      · exact C.pc j (by omega)
      · intro he
        have hjk := congrArg Fin.val (hf he)
        simp only at hjk
        omega
  · exact absurd (C.card_of_used hall) (by omega)

theorem Crowd.exists_le (hf : Function.Injective f) (h : Boot c) :
    ∀ k ≤ n, ∃ c' : Cache n P D, Crowd c' f k
  | 0, _ => ⟨c, .of_boot h⟩
  | k + 1, hk => by
    obtain ⟨c', C⟩ := Crowd.exists_le hf h k (by omega)
    exact C.next hf hk

theorem exhausted (h : Boot c) (hcard : n < Fintype.card P) :
    ∃ (c' : Cache n P D) (p : P), Readers c' ∧ (Req.bread 1 n : Req n D).reader c' p ∧
      step c' (p, .bread 1 n) = .panic .noBuffers := by
  obtain ⟨f⟩ : Nonempty (Fin (n + 1) ↪ P) :=
    Function.Embedding.nonempty_of_card_le (by rw [Fintype.card_fin]; exact hcard)
  obtain ⟨c', C⟩ := Crowd.exists_le f.injective h n (Nat.le_refl n)
  have hpc := C.pc ⟨n, by omega⟩ (Nat.le_refl n)
  refine ⟨c', f ⟨n, by omega⟩, C.run, C.reader, ?_⟩
  simp only [step, hpc]
  rcases C.run.inv.bget_miss (f ⟨n, by omega⟩) C.miss with ⟨b, hb, -⟩ | ⟨-, hs⟩
  · -- every buffer is for one of the `n` blocks
    have huniv : (Finset.univ.filter fun b => (c'.buf b).dev = 1) = Finset.univ :=
      Finset.eq_univ_of_card _ (by rw [C.card, Fintype.card_fin])
    have hone : (c'.buf b).dev = 1 := by simpa using Finset.ext_iff.mp huniv b
    rcases C.buf b with ⟨h, -⟩ | ⟨-, -, h⟩
    · rw [h] at hone
      cases hone
    · rw [hb] at h
      cases h
  · exact hs

end Many

/-- **How many readers the cache bears.** With processes that have one buffer at a time, and no
    pins, `bget` finds a buffer in every run if and only if there are at most as many processes as
    buffers. -/
theorem readers_find_buffers [Fintype P] [DecidableEq P] [Inhabited D] :
    (∀ (c : Cache n P D) (a : P × Req n D), Readers c → a.2.reader c a.1 →
      step c a ≠ .panic .noBuffers) ↔ Fintype.card P ≤ n := by
  constructor
  · intro h
    by_contra hlt
    obtain ⟨c, p, hr, hreq, hs⟩ :=
      exhausted (Cache.boot_spec (fun _ => default) default : Boot (Cache.boot _ _ : Cache n P D))
        (Nat.lt_of_not_le hlt)
    exact h c _ hr hreq hs
  · rintro hle c ⟨p, req⟩ hr hreq hs
    rcases step_panic hs with ⟨dev, blockno, rfl, hb⟩ | he | he
    · cases hp : c.pc p with
      | out r => exact absurd (hr.card_of_panic hp hreq hb) (Nat.not_lt.mpr hle)
      | _ => simp [step, hp] at hs
    · cases he
    · cases he

/-- The kernel has 64 processes and 30 buffers: 30 readers of 30 blocks, and one more. -/
theorem readers_panic : ∃ (c : Cache NBUF (Fin NPROC) Unit) (p : Fin NPROC), Readers c ∧
    (∀ b, (c.buf b).owner ≠ some p) ∧ (∀ b, c.pins b = 0) ∧
      step c (p, .bread 1 30) = .panic .noBuffers := by
  obtain ⟨c, p, hr, hreq, hs⟩ :=
    exhausted (Cache.boot_spec (fun _ => ()) () : Boot (Cache.boot _ _ : Cache NBUF (Fin NPROC) Unit))
      (by decide)
  exact ⟨c, p, hr, hreq, hr.single.pins, hs⟩

end ZeptOS.Bio
