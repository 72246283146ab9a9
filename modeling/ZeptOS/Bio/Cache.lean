import Mathlib.Data.Fintype.BigOperators
import ZeptOS.Bio.Model

/-!
# The structure of the buffer cache

The pointers are one list through the head with every buffer in it, so both loops of `bget` end and
look at every buffer. A block that is not found is in no buffer, which is why the buffer that is
recycled for it is the only one. And `refcnt` counts: a process that has chosen a buffer counts
until it has gone through `brelse`, whether it waits for the sleep lock, has it or has given it up.

`refcnt` is a `uint`; the number it counts is taken as one.

What the buffers hold is not covered, and neither is when the disk answers: a process that waits
for a block may wait for ever.
-/

namespace ZeptOS.Bio

open Lib Function

variable {n : Nat} {P D : Type} {c c' : Cache n P D} {p : P} {b : Fin n} {req : Req n D}
variable {e : Panic}

variable {f : Buf P D → Buf P D}

@[simp] theorem modify_buf_self : (c.modify b f).buf b = f (c.buf b) := update_self ..

theorem modify_buf_of_ne {b' : Fin n} (h : b' ≠ b) :
    (c.modify b f).buf b' = c.buf b' := update_of_ne h _ _

@[simp] theorem modify_pc : (c.modify b f).pc = c.pc := rfl
@[simp] theorem modify_pins : (c.modify b f).pins = c.pins := rfl

variable {blockno : Nat}

variable {dev : Nat}

theorem is_iff {x : Buf P D} : x.is dev blockno = true ↔ x.dev = dev ∧ x.blockno = blockno := by
  simp [Buf.is]

section Goto

variable [DecidableEq P] {q : Pc n}

@[simp] theorem goto_buf : (c.goto p q).buf = c.buf := rfl
@[simp] theorem goto_pins : (c.goto p q).pins = c.pins := rfl
@[simp] theorem goto_pc_self : (c.goto p q).pc p = q := update_self ..

theorem goto_pc_of_ne {p' : P} (h : p' ≠ p) : (c.goto p q).pc p' = c.pc p' :=
  update_of_ne h _ _

end Goto

/-- How many members of a finite family have a property, when one member changes. -/
theorem card_filter_update {ι α : Type} [Fintype ι] [DecidableEq ι] (f : ι → α) (i : ι) (a : α)
    (p : α → Prop) [DecidablePred p] :
    (Finset.univ.filter fun j => p (update f i a j)).card + (if p (f i) then 1 else 0) =
      (Finset.univ.filter fun j => p (f j)).card + if p a then 1 else 0 := by
  have hsum : ∀ g : ι → α, (Finset.univ.filter fun j => p (g j)).card =
      (if p (g i) then 1 else 0) + ∑ j ∈ Finset.univ.erase i, if p (g j) then 1 else 0 :=
    fun g => by
      rw [Finset.card_filter]
      exact (Finset.add_sum_erase _ (fun j => if p (g j) then 1 else 0) (Finset.mem_univ i)).symm
  have hrest : ∑ j ∈ Finset.univ.erase i, (if p (update f i a j) then 1 else 0) =
      ∑ j ∈ Finset.univ.erase i, if p (f j) then 1 else 0 :=
    Finset.sum_congr rfl fun j hj => by rw [update_of_ne (Finset.ne_of_mem_erase hj)]
  rw [hsum (update f i a), hsum f, hrest, update_self]
  omega

/-! ## What a step does -/

inductive Step [DecidableEq P] (c : Cache n P D) (p : P) : Req n D → Cache n P D → Prop
  | hit {r : Option (Fin n)} {dev blockno : Nat} {b : Fin n} (hp : c.pc p = .out r)
      (hb : Links.find c.link.next (fun b => (c.buf b).is dev blockno) (n + 1)
        (c.link.next none) = some (some b)) :
      Step c p (.bread dev blockno)
        ((c.modify b fun x => { x with refcnt := x.refcnt + 1 }).goto p (.lock b))
  | recycle {r : Option (Fin n)} {dev blockno : Nat} {b : Fin n} (hp : c.pc p = .out r)
      (hmiss : Links.find c.link.next (fun b => (c.buf b).is dev blockno) (n + 1)
        (c.link.next none) = some none)
      (hb : Links.find c.link.prev (fun b => (c.buf b).refcnt = 0) (n + 1)
        (c.link.prev none) = some (some b)) :
      Step c p (.bread dev blockno)
        ((c.modify b fun x => { x with dev, blockno, valid := false, refcnt := 1 }).goto p (.lock b))
  | store {r : Option (Fin n)} {b : Fin n} {d : D} (hp : c.pc p = .out r)
      (ho : (c.buf b).owner = some p) : Step c p (.store b d) (c.modify b fun x => { x with data := d })
  | bwrite {r : Option (Fin n)} {b : Fin n} (hp : c.pc p = .out r)
      (ho : (c.buf b).owner = some p) : Step c p (.bwrite b)
        { c with disk := Function.update c.disk (c.buf b).blockno (c.buf b).data }
  | brelse {r : Option (Fin n)} {b : Fin n} (hp : c.pc p = .out r)
      (ho : (c.buf b).owner = some p) : Step c p (.brelse b)
        ((c.modify b fun x => { x with owner := none }).goto p (.drop b))
  | bpin {r : Option (Fin n)} {b : Fin n} (hp : c.pc p = .out r) : Step c p (.bpin b)
      { c.modify b fun x => { x with refcnt := x.refcnt + 1 } with
        pins := Function.update c.pins b (c.pins b + 1) }
  | bunpin {r : Option (Fin n)} {b : Fin n} (hp : c.pc p = .out r) : Step c p (.bunpin b)
      { c.modify b fun x => { x with refcnt := x.refcnt - 1 } with
        pins := Function.update c.pins b (c.pins b - 1) }
  | acquire {b : Fin n} (hp : c.pc p = .lock b) (ho : (c.buf b).owner = none) :
      Step c p .go ((c.modify b fun x => { x with owner := some p }).goto p (.fill b))
  | fill {b : Fin n} (hp : c.pc p = .fill b) : Step c p .go (fill c p b)
  | drop {b : Fin n} (hp : c.pc p = .drop b) : Step c p .go (drop c p b)

theorem Step.of_bget [DecidableEq P] {r : Option (Fin n)}
    (hp : c.pc p = .out r) (hs : bget c p dev blockno = .next c') :
    Step c p (.bread dev blockno) c' := by
  unfold bget at hs
  split at hs
  · cases hs
  · cases hs
    exact .hit hp ‹_›
  · split at hs <;> cases hs
    exact .recycle hp ‹_› ‹_›

theorem Step.of_step [DecidableEq P] {a : P × Req n D} (hs : step c a = .next c') :
    Step c a.1 a.2 c' := by
  obtain ⟨p, req⟩ := a
  cases hp : c.pc p with
  | out r =>
    cases req with
    | bread dev blockno =>
      simp only [step, hp] at hs
      exact .of_bget hp hs
    | store b d | bwrite b | brelse b =>
      simp only [step, hp] at hs
      split at hs <;> cases hs
      first | exact .store hp ‹_› | exact .bwrite hp ‹_› | exact .brelse hp ‹_›
    | bpin b | bunpin b =>
      simp only [step, hp] at hs
      cases hs
      first | exact .bpin hp | exact .bunpin hp
    | go =>
      simp only [step, hp] at hs
      cases hs
  | lock b =>
    cases req <;> simp only [step, hp] at hs <;> try cases hs
    unfold Bio.acquire at hs
    split at hs <;> cases hs
    exact .acquire hp ‹_›
  | fill b =>
    cases req <;> simp only [step, hp] at hs <;> cases hs
    exact .fill hp
  | drop b =>
    cases req <;> simp only [step, hp] at hs <;> cases hs
    exact .drop hp

/-! ## Counting -/

section Count

variable [Fintype P]

/-- The buffer a process has counted and does not own: it waits for it or is about to let it go. -/
def Pc.uses : Pc n → Option (Fin n)
  | .lock b | .drop b => some b
  | .out _ | .fill _ => none

/-- The processes that wait for a buffer, or have released it and not counted down yet. -/
def Cache.users (c : Cache n P D) (b : Fin n) : Finset P :=
  Finset.univ.filter fun p => (c.pc p).uses = some b

/-- Who counts for a buffer: the process that holds it, the users and the pins. -/
def Cache.refs (c : Cache n P D) (b : Fin n) : Nat :=
  (c.buf b).owner.isSome.toNat + (c.users b).card + c.pins b

variable [DecidableEq P]

theorem card_users_goto (c : Cache n P D) (p : P) (q : Pc n) (b : Fin n) :
    ((c.goto p q).users b).card + (if (c.pc p).uses = some b then 1 else 0) =
      (c.users b).card + if q.uses = some b then 1 else 0 :=
  card_filter_update c.pc p q (fun q => q.uses = some b)

omit [DecidableEq P] in
theorem refs_modify {pins : Fin n → Nat} {b' : Fin n} :
    ({ c.modify b f with pins } : Cache n P D).refs b' =
      ((c.modify b f).buf b').owner.isSome.toNat + (c.users b').card + pins b' := rfl

def Req.paired (c : Cache n P D) : Req n D → Prop
  | .bunpin b => 0 < c.pins b
  | _ => True

instance : ∀ req : Req n D, Decidable (req.paired c)
  | .bunpin b => inferInstanceAs (Decidable (0 < c.pins b))
  | .bread _ _ | .store _ _ | .bwrite _ | .brelse _ | .bpin _ | .go => .isTrue trivial

theorem refs_goto (c : Cache n P D) (p : P) (b : Fin n) (f : Buf P D → Buf P D) (q : Pc n)
    (b' : Fin n) : ((c.modify b f).goto p q).refs b' +
        ((c.buf b').owner.isSome.toNat + if (c.pc p).uses = some b' then 1 else 0) =
      c.refs b' + (((c.modify b f).buf b').owner.isSome.toNat +
        if q.uses = some b' then 1 else 0) := by
  have hu : (((c.modify b f).goto p q).users b').card + (if (c.pc p).uses = some b' then 1 else 0) =
      (c.users b').card + if q.uses = some b' then 1 else 0 := card_users_goto c p q b'
  unfold Cache.refs
  simp only [goto_buf, goto_pins, modify_pins]
  omega

theorem goto_other {q : Pc n} {b' : Fin n} (hb : b' ≠ b)
    (hp : ∀ x ∈ (c.pc p).uses, x = b) (hq : ∀ x ∈ q.uses, x = b) :
    (((c.modify b f).goto p q).buf b').refcnt = (c.buf b').refcnt ∧
      ((c.modify b f).goto p q).refs b' = c.refs b' := by
  have hu := refs_goto c p b f q b'
  have hp' : (c.pc p).uses ≠ some b' := fun h => hb (hp b' h)
  have hq' : q.uses ≠ some b' := fun h => hb (hq b' h)
  rw [if_neg hp', if_neg hq', modify_buf_of_ne hb] at hu
  exact ⟨by rw [goto_buf, modify_buf_of_ne hb], by omega⟩

/-- A step counts a buffer up or down by one, together with those it counts, or leaves both. -/
theorem Step.counts (hs : Step c p req c') (hpin : req.paired c) (b : Fin n) :
    (c'.buf b).refcnt = (c.buf b).refcnt ∧ c'.refs b = c.refs b ∨
    (c'.buf b).refcnt = (c.buf b).refcnt + 1 ∧ c'.refs b = c.refs b + 1 ∨
    (c'.buf b).refcnt = (c.buf b).refcnt - 1 ∧ c'.refs b + 1 = c.refs b := by
  cases hs with
  | @hit r dev blockno b₀ hp hb =>
    by_cases hbb : b = b₀
    · subst hbb
      have hu := refs_goto c p b (fun x => { x with refcnt := x.refcnt + 1 }) (.lock b) b
      simp [hp, Pc.uses] at hu
      exact .inr (.inl ⟨by simp, by omega⟩)
    · exact .inl (goto_other hbb (by simp [hp, Pc.uses]) (by simp [Pc.uses]))
  | @recycle r dev blockno b₀ hp hmiss hb =>
    by_cases hbb : b = b₀
    · subst hbb
      have hu := refs_goto c p b (fun x => { x with dev, blockno, valid := false, refcnt := 1 })
        (.lock b) b
      have hzero : (c.buf b).refcnt = 0 := by simpa using Links.find_some hb
      simp [hp, Pc.uses] at hu
      exact .inr (.inl ⟨by simp [hzero], by omega⟩)
    · exact .inl (goto_other hbb (by simp [hp, Pc.uses]) (by simp [Pc.uses]))
  | @store r b₀ d hp ho =>
    by_cases hbb : b = b₀
    · subst hbb
      exact .inl ⟨by simp, by rw [refs_modify]; simp [Cache.refs]⟩
    · exact .inl ⟨by rw [modify_buf_of_ne hbb], by
        rw [refs_modify, modify_buf_of_ne hbb]
        rfl⟩
  | bwrite hp ho => exact .inl ⟨rfl, rfl⟩
  | @brelse r b₀ hp ho =>
    by_cases hbb : b = b₀
    · subst hbb
      have hu := refs_goto c p b (fun x => { x with owner := none }) (.drop b) b
      simp [hp, ho, Pc.uses] at hu
      exact .inl ⟨by simp, hu⟩
    · exact .inl (goto_other hbb (by simp [hp, Pc.uses]) (by simp [Pc.uses]))
  | @bpin r b₀ hp =>
    rw [refs_modify]
    by_cases hbb : b = b₀
    · subst hbb
      refine .inr (.inl ⟨by simp, ?_⟩)
      simp only [modify_buf_self, update_self, Cache.refs]
      omega
    · refine .inl ⟨by simp [modify_buf_of_ne hbb], ?_⟩
      rw [modify_buf_of_ne hbb, update_of_ne hbb]
      rfl
  | @bunpin r b₀ hp =>
    rw [refs_modify]
    by_cases hbb : b = b₀
    · subst hbb
      have hpos : 0 < c.pins b := hpin
      refine .inr (.inr ⟨by simp, ?_⟩)
      simp only [modify_buf_self, update_self, Cache.refs]
      omega
    · refine .inl ⟨by simp [modify_buf_of_ne hbb], ?_⟩
      rw [modify_buf_of_ne hbb, update_of_ne hbb]
      rfl
  | @acquire b₀ hp ho =>
    by_cases hbb : b = b₀
    · subst hbb
      have hu := refs_goto c p b (fun x => { x with owner := some p }) (.fill b) b
      simp [hp, ho, Pc.uses] at hu
      exact .inl ⟨by simp, hu⟩
    · exact .inl (goto_other hbb (by simp [hp, Pc.uses]) (by simp [Pc.uses]))
  | @fill b₀ hp =>
    unfold Bio.fill
    by_cases hbb : b = b₀
    · subst hbb
      have hu := refs_goto c p b (fun x => if x.valid then x else
        { x with data := c.disk x.blockno, valid := true }) (.out (some b)) b
      refine .inl ?_
      cases hv : (c.buf b).valid <;> simp [hp, hv, Pc.uses] at hu ⊢ <;> exact hu
    · exact .inl (goto_other hbb (by simp [hp, Pc.uses]) (by simp [Pc.uses]))
  | @drop b₀ hp =>
    have hbuf : (Bio.drop c p b₀).buf =
        ((c.modify b₀ fun x => { x with refcnt := x.refcnt - 1 }).goto p (.out none)).buf := rfl
    have hrefs : (Bio.drop c p b₀).refs =
        ((c.modify b₀ fun x => { x with refcnt := x.refcnt - 1 }).goto p (.out none)).refs := rfl
    rw [hbuf, hrefs]
    by_cases hbb : b = b₀
    · subst hbb
      have hu := refs_goto c p b (fun x => { x with refcnt := x.refcnt - 1 }) (.out none) b
      simp [hp, Pc.uses] at hu
      exact .inr (.inr ⟨by simp, by omega⟩)
    · exact .inl (goto_other hbb (by simp [hp, Pc.uses]) (by simp [Pc.uses]))

end Count

/-! ## The invariant -/

structure Inv [Fintype P] (c : Cache n P D) : Prop where
  list : ∃ l, c.link.Circular l ∧ ∀ b, b ∈ l
  unique : ∀ b b', (c.buf b).dev ≠ 0 → (c.buf b').dev = (c.buf b).dev →
    (c.buf b').blockno = (c.buf b).blockno → b' = b
  count : ∀ b, (c.buf b).refcnt = UInt32.ofNat (c.refs b)

section Loops

variable {l : List (Fin n)} (hl : c.link.Circular l) (hall : ∀ b, b ∈ l)

include hl in
theorem length_le : l.length < n + 1 := by
  have := hl.nodup.length_le_card
  rw [Fintype.card_fin] at this
  omega

include hl hall in
theorem find_miss
    (h : Links.find c.link.next (fun b => (c.buf b).is dev blockno) (n + 1) (c.link.next none) =
      some none) (b : Fin n) : ¬ ((c.buf b).dev = dev ∧ (c.buf b).blockno = blockno) := by
  rw [hl.find_next _ (length_le hl), Option.some.injEq, List.find?_eq_none] at h
  exact fun hb => h b (hall b) (is_iff.mpr hb)

include hl hall in
theorem find_none (h : Links.find c.link.prev (fun b => (c.buf b).refcnt = 0) (n + 1)
    (c.link.prev none) = some none) (b : Fin n) : (c.buf b).refcnt ≠ 0 := by
  rw [hl.find_prev _ (length_le hl), Option.some.injEq, List.find?_eq_none] at h
  simpa using h b (List.mem_reverse.mpr (hall b))

end Loops

variable [DecidableEq P]

theorem Step.list (hs : Step c p req c') (h : ∃ l, c.link.Circular l ∧ ∀ b, b ∈ l) :
    ∃ l, c'.link.Circular l ∧ ∀ b, b ∈ l := by
  cases hs with
  | @drop b hp =>
    obtain ⟨l, hl, hall⟩ := h
    simp only [Bio.drop]
    split
    · obtain ⟨l', hl', hiff⟩ := hl.moveToFront (hall b)
      exact ⟨l', hl', fun b => (hiff b).mpr (hall b)⟩
    · exact ⟨l, hl, hall⟩
  | _ => exact h

theorem Step.block (hs : Step c p req c') (b : Fin n) :
    (c'.buf b).dev = (c.buf b).dev ∧ (c'.buf b).blockno = (c.buf b).blockno ∨
    ∃ dev blockno, req = .bread dev blockno ∧ (c.buf b).refcnt = 0 ∧
      Links.find c.link.next (fun b => (c.buf b).is dev blockno) (n + 1) (c.link.next none) =
        some none ∧ (c'.buf b).dev = dev ∧ (c'.buf b).blockno = blockno ∧
      ∀ b', b' ≠ b → c'.buf b' = c.buf b' := by
  cases hs with
  | @recycle r dev blockno b₀ hp hmiss hb =>
    by_cases hbb : b = b₀
    · subst hbb
      exact .inr ⟨dev, blockno, rfl, by simpa using Links.find_some hb, hmiss, by simp, by simp,
        fun b' hne => by rw [goto_buf, modify_buf_of_ne hne]⟩
    · exact .inl (by simp [modify_buf_of_ne hbb])
  | @fill b₀ hp =>
    refine .inl ?_
    unfold Bio.fill
    by_cases hbb : b = b₀
    · subst hbb
      cases hv : (c.buf b).valid <;> simp [hv]
    · simp [modify_buf_of_ne hbb]
  | bwrite hp ho => exact .inl ⟨rfl, rfl⟩
  | @hit _ _ _ b₀ _ _ | @store _ b₀ _ _ _ | @brelse _ b₀ _ _ | @bpin _ b₀ _ | @bunpin _ b₀ _
    | @acquire b₀ _ _ | @drop b₀ _ =>
    refine .inl ?_
    by_cases hbb : b = b₀
    · subst hbb
      simp [Bio.drop]
    · simp [Bio.drop, modify_buf_of_ne hbb]

theorem Step.owner_of (hs : Step c p req c') {p' : P} (h : (c'.buf b).owner = some p') :
    (c.buf b).owner = some p' ∨ p' = p ∧ c.pc p = .lock b := by
  cases hs with
  | @acquire b₀ hp ho =>
    by_cases hbb : b = b₀
    · subst hbb
      simp only [goto_buf, modify_buf_self, Option.some.injEq] at h
      exact .inr ⟨h.symm, hp⟩
    · exact .inl (by simpa [modify_buf_of_ne hbb] using h)
  | @fill b₀ hp =>
    refine .inl ?_
    unfold Bio.fill at h
    by_cases hbb : b = b₀
    · subst hbb
      cases hv : (c.buf b).valid <;> simpa [hv] using h
    · simpa [modify_buf_of_ne hbb] using h
  | bwrite hp ho => exact .inl h
  | @brelse r b₀ hp ho =>
    by_cases hbb : b = b₀
    · subst hbb
      simp at h
    · exact .inl (by simpa [modify_buf_of_ne hbb] using h)
  | @hit _ _ _ b₀ _ _ | @recycle _ _ _ b₀ _ _ _ | @store _ b₀ _ _ _ | @bpin _ b₀ _
    | @bunpin _ b₀ _ | @drop b₀ _ =>
    refine .inl ?_
    by_cases hbb : b = b₀
    · subst hbb
      simpa [Bio.drop] using h
    · simpa [Bio.drop, modify_buf_of_ne hbb] using h

theorem Step.pc_other (hs : Step c p req c') {p' : P} (hne : p' ≠ p) : c'.pc p' = c.pc p' := by
  cases hs with
  | store _ _ | bwrite _ _ | bpin _ | bunpin _ => rfl
  | _ => exact update_of_ne hne _ _

theorem Step.unique [Fintype P] (I : Inv c) (hs : Step c p req c') (b b' : Fin n)
    (h0 : (c'.buf b).dev ≠ 0) (hd : (c'.buf b').dev = (c'.buf b).dev)
    (hn : (c'.buf b').blockno = (c'.buf b).blockno) : b' = b := by
  obtain ⟨l, hl, hall⟩ := I.list
  by_contra hne
  rcases hs.block b with ⟨hd₁, hn₁⟩ | ⟨dev, blockno, -, -, hmiss, hd₁, hn₁, hrest⟩
  · rcases hs.block b' with ⟨hd₂, hn₂⟩ | ⟨dev, blockno, -, -, hmiss, hd₂, hn₂, -⟩
    · exact hne (I.unique b b' (hd₁ ▸ h0) (by rw [← hd₁, ← hd₂, hd]) (by rw [← hn₁, ← hn₂, hn]))
    · exact find_miss hl hall hmiss b ⟨by rw [← hd₁, ← hd, hd₂], by rw [← hn₁, ← hn, hn₂]⟩
  · rw [hrest b' hne, hd₁] at hd
    rw [hrest b' hne, hn₁] at hn
    exact find_miss hl hall hmiss b' ⟨hd, hn⟩

theorem Inv.step [Fintype P] (I : Inv c) (hpin : req.paired c) (hs : Step c p req c') : Inv c' where
  list := hs.list I.list
  unique := hs.unique I
  count b := by
    rcases hs.counts hpin b with ⟨hr, hc⟩ | ⟨hr, hc⟩ | ⟨hr, hc⟩
    · rw [hr, hc, I.count b]
    · rw [hr, hc, I.count b, UInt32.ofNat_add]
      rfl
    · rw [hr, I.count b, ← hc, UInt32.ofNat_add]
      simp

omit [DecidableEq P] in
theorem binit_circular (k : Links (Fin n)) : (binit k).Circular (List.finRange n).reverse := by
  have h := (Links.Circular.clear k).foldl_insert (List.nodup_finRange n) fun _ _ => List.not_mem_nil
  rwa [List.append_nil] at h

omit [DecidableEq P] in
theorem Inv.of_boot [Fintype P] (h : Boot c) : Inv c where
  list := by
    obtain ⟨k, hk⟩ := h.link
    exact ⟨_, hk ▸ binit_circular k, fun b => by simp⟩
  unique b b' h0 := absurd (h.buf b).1 h0
  count b := by
    obtain ⟨-, -, -, ho, hr⟩ := h.buf b
    have hu : c.users b = ∅ := by
      simp [Cache.users, h.pc, Pc.uses]
    rw [hr, Cache.refs, ho, hu, h.pins b]
    rfl

theorem Inv.of_reach [Fintype P] (hr : Reach Boot Bio.step (fun c a => a.2.paired c) c) : Inv c :=
  hr.invariant (fun _ => .of_boot) fun _ _ _ I hpin hs => I.step hpin (.of_step hs)

/-! ## Panics -/

theorem step_panic (hs : step c (p, req) = .panic e) :
    (∃ dev blockno, req = .bread dev blockno ∧ bget c p dev blockno = .panic e) ∨
      e = .bwrite ∨ e = .brelse := by
  cases hp : c.pc p with
  | out r =>
    cases req with
    | bread dev blockno =>
      simp only [step, hp] at hs
      exact .inl ⟨dev, blockno, rfl, hs⟩
    | store b d =>
      simp only [step, hp] at hs
      split at hs <;> cases hs
    | bwrite b | brelse b =>
      simp only [step, hp] at hs
      split at hs <;> cases hs
      first | exact .inr (.inl rfl) | exact .inr (.inr rfl)
    | bpin b | bunpin b | go =>
      simp only [step, hp] at hs
      cases hs
  | lock b =>
    cases req <;> simp only [step, hp, reduceCtorEq] at hs
    unfold Bio.acquire at hs
    split at hs <;> cases hs
  | fill b | drop b => cases req <;> simp only [step, hp, reduceCtorEq] at hs

theorem Inv.bget_panic [Fintype P] (I : Inv c) (h : bget c p dev blockno = .panic e) :
    e = .noBuffers ∧ ∀ b, (c.buf b).refcnt ≠ 0 := by
  obtain ⟨l, hl, hall⟩ := I.list
  unfold bget at h
  split at h
  · rename_i hf
    rw [hl.find_next _ (length_le hl)] at hf
    cases hf
  · cases h
  · split at h
    · rename_i hf
      rw [hl.find_prev _ (length_le hl)] at hf
      cases hf
    · cases h
    · rename_i hf
      cases h
      exact ⟨rfl, find_none hl hall hf⟩

theorem Inv.bget_miss [Fintype P] (I : Inv c) (p : P)
    (hmiss : ∀ b, ¬ ((c.buf b).dev = dev ∧ (c.buf b).blockno = blockno)) :
    (∃ b, (c.buf b).refcnt = 0 ∧ bget c p dev blockno = .next
      ((c.modify b fun x => { x with dev, blockno, valid := false, refcnt := 1 }).goto p
        (.lock b))) ∨
      (∀ b, (c.buf b).refcnt ≠ 0) ∧ bget c p dev blockno = .panic .noBuffers := by
  obtain ⟨l, hl, hall⟩ := I.list
  have hnext : l.find? (fun b => (c.buf b).is dev blockno) = none :=
    List.find?_eq_none.mpr fun b _ hb => hmiss b (is_iff.mp hb)
  have hfirst := hl.find_next (fun b => (c.buf b).is dev blockno) (length_le hl)
  have hsecond := hl.find_prev (fun b => (c.buf b).refcnt = 0) (length_le hl)
  rw [hnext] at hfirst
  unfold bget
  rw [hfirst]
  cases hf : l.reverse.find? (fun b => (c.buf b).refcnt = 0) with
  | none =>
    rw [hf] at hsecond
    rw [hsecond]
    exact .inr ⟨find_none hl hall hsecond, rfl⟩
  | some b =>
    rw [hf] at hsecond
    rw [hsecond]
    exact .inl ⟨b, by simpa using List.find?_some hf, rfl⟩

theorem Inv.no_hang [Fintype P] (I : Inv c) (a : P × Req n D) : Bio.step c a ≠ .panic .hang := by
  intro hs
  rcases step_panic hs with ⟨dev, blockno, -, hb⟩ | he | he
  · cases (I.bget_panic hb).1
  · cases he
  · cases he

/-- **The structure of the cache.** In every state of every run after `binit` the pointers form one
    list through the head with every buffer in it once, and the loops over it end; no two buffers
    have the same block of a device other than 0; a buffer with `refcnt > 0` keeps its block in the
    next step; and `refcnt` is the number of those that hold the buffer, that wait for it or are
    about to count it down, and of the pins. A process that waits for a buffer it holds counts for
    both. -/
theorem cache_structure [Fintype P] (hr : Reach Boot Bio.step (fun c a => a.2.paired c) c) :
    (∃ l, c.link.Circular l ∧ ∀ b, b ∈ l) ∧ (∀ a, Bio.step c a ≠ .panic .hang) ∧
      (∀ b b', (c.buf b).dev ≠ 0 → (c.buf b').dev = (c.buf b).dev →
        (c.buf b').blockno = (c.buf b).blockno → b' = b) ∧
      (∀ a c', Bio.step c a = .next c' → ∀ b, (c.buf b).refcnt ≠ 0 →
        (c'.buf b).dev = (c.buf b).dev ∧ (c'.buf b).blockno = (c.buf b).blockno) ∧
      ∀ b, (c.buf b).refcnt =
        UInt32.ofNat ((c.buf b).owner.isSome.toNat + (c.users b).card + c.pins b) := by
  have I := Inv.of_reach hr
  refine ⟨I.list, I.no_hang, I.unique, fun a c' hs b hb => ?_, I.count⟩
  rcases (Step.of_step hs).block b with h | ⟨_, _, -, h0, -⟩
  · exact h
  · exact absurd h0 hb

/-- One process has the buffer of block 1, another one waits for it, and it is pinned. -/
theorem cache_structure_pinned : ∃ c : Cache 2 (Fin 2) Unit,
    Reach Boot Bio.step (fun c a => a.2.paired c) c ∧ (c.buf 0).blockno = 1 ∧
      (c.buf 0).owner = some 0 ∧ c.pc 1 = .lock 0 ∧ c.pins 0 = 1 ∧
      (c.buf 0).refcnt = UInt32.ofNat (1 + (c.users 0).card + 1) := by
  have hrun : (exec Bio.step (fun c a => a.2.paired c)
      (Cache.boot (fun _ => ()) () : Cache 2 (Fin 2) Unit)
      [(0, .bread 1 1), (0, .go), (0, .go), (0, .bpin 0), (1, .bread 1 1)]).any
      (fun c => (c.buf 0).blockno = 1 ∧ (c.buf 0).owner = some 0 ∧ c.pc 1 = .lock 0 ∧
        c.pins 0 = 1) = true := by
    decide +kernel
  obtain ⟨c, hr, hq⟩ := Reach.exec_any (Cache.boot_spec _ _) hrun
  obtain ⟨hb, ho, hp, hpin⟩ := of_decide_eq_true hq
  have hcount := (cache_structure hr).2.2.2.2 0
  rw [ho, hpin] at hcount
  exact ⟨c, hr, hb, ho, hp, hpin, hcount⟩

end ZeptOS.Bio
