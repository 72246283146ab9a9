import ZeptOS.Fs.Run

/-!
# The inode table

An inode that is in use has one entry of the table: `iget` looks for it before it takes an entry for
it, in one section under the lock, and an entry gets a second reference only from somebody who has
one. So the table is full exactly when `NINODE` inodes are in use (`igetPanics_iff`), by open files,
current directories and calls that are looking up a path. Nothing keeps their number below that.
-/

namespace ZeptOS.Fs

open Lib Lib.Code

variable {s : State} {ip : Slot} {dev inum : Nat}

/-! ## One entry for an inode -/

/-- No two entries that are in use are for the same inode. -/
def Unique (s : State) : Prop := ∀ i j, 0 < (s.ident i).ref → 0 < (s.ident j).ref →
  (s.ident i).dev = (s.ident j).dev → (s.ident i).inum = (s.ident j).inum → i = j

section Unique

variable {s' : State} {ω : Oracle} {p : Proc}

theorem Unique.of_fewer (h : Unique s)
    (hid : ∀ i, (s'.ident i).dev = (s.ident i).dev ∧ (s'.ident i).inum = (s.ident i).inum)
    (href : ∀ i, 0 < (s'.ident i).ref → 0 < (s.ident i).ref) : Unique s' := by
  intro i j hi hj hdev hinum
  rw [(hid i).1, (hid j).1] at hdev
  rw [(hid i).2, (hid j).2] at hinum
  exact h i j (href i hi) (href j hj) hdev hinum

theorem Unique.addRef (h : Unique s) {n : Int}
    (hn : 0 < (s.ident ip).ref + n → 0 < (s.ident ip).ref) : Unique (s.addRef ip n) := by
  refine h.of_fewer (fun i => ?_) fun i => ?_
  · by_cases hi : i = ip
    · subst hi
      simp [State.addRef, State.setIdent]
    · simp [State.addRef, State.setIdent, hi]
  · by_cases hi : i = ip
    · subst hi
      simpa [State.addRef, State.setIdent] using hn
    · simp [State.addRef, State.setIdent, hi]

theorem Unique.recycle (h : Unique s) (hc : s.cached dev inum = none) :
    Unique (s.recycle ip dev inum) := by
  have hnone (i : Slot) (hr : 0 < (s.ident i).ref) (hd : (s.ident i).dev = dev)
      (hi : (s.ident i).inum = inum) : False := by
    simpa [hr, hd, hi] using List.find?_eq_none.mp hc i (List.mem_finRange i)
  have hself : (s.recycle ip dev inum).ident ip = ⟨dev, inum, 1⟩ := by
    simp [State.recycle, State.setIdent, State.setNode]
  have hother {i : Slot} (hi : i ≠ ip) : (s.recycle ip dev inum).ident i = s.ident i := by
    simp [State.recycle, State.setIdent, State.setNode, hi]
  intro i j
  by_cases hi : i = ip <;> by_cases hj : j = ip
  · exact fun _ _ _ _ => hi.trans hj.symm
  · subst hi
    rw [hself, hother hj]
    exact fun _ hr hd hn => (hnone j hr hd.symm hn.symm).elim
  · subst hj
    rw [hself, hother hi]
    exact fun hr _ hd hn => (hnone i hr hd hn).elim
  · rw [hother hi, hother hj]
    exact h i j

/-- **One step.** A reference is added where there is one. -/
theorem Unique.perform (h : Unique s) {o : Op} {r : o.Ans}
    (hdup : ∀ ip, o = .idup ip → 0 < (s.ident ip).ref)
    (he : perform ω p s o = .ok (r, s')) : Unique s' := by
  have hsame (hi : s'.ident = s.ident) : Unique s' := by
    intro i j
    rw [hi]
    exact h i j
  cases o with
  | iget dev inum =>
    simp only [Fs.perform] at he
    split at he
    · next ip hc =>
      obtain ⟨rfl, rfl⟩ := ok_inj he
      have hr := List.find?_some hc
      simp only [decide_eq_true_eq] at hr
      exact h.addRef fun _ => hr.1
    · next hc _ =>
      obtain ⟨rfl, rfl⟩ := ok_inj he
      exact h.recycle hc
    · cases he
  | idup ip =>
    obtain ⟨-, rfl⟩ := ok_inj he
    exact h.addRef fun _ => hdup ip rfl
  | iputTest ip =>
    simp only [Fs.perform] at he
    split at he
    · split at he
      · obtain ⟨-, rfl⟩ := ok_inj he
        exact h
      · cases he
    · obtain ⟨-, rfl⟩ := ok_inj he
      exact h.addRef fun hr => by omega
  | iputDrop ip =>
    obtain ⟨-, rfl⟩ := ok_inj he
    exact h.addRef fun hr => by omega
  | panic e => cases he
  | _ =>
    refine hsame ?_
    simp only [Fs.perform] at he
    repeat' split at he
    all_goals cases he
    all_goals rfl

theorem Inv.ref_of_mem {G : Proc → Ledger} (h : Inv s G) (hm : .iref ip ∈ (G p).1) :
    0 < (s.ident ip).ref := by
  have hp : 0 < (G p).1.count (.iref ip) := Multiset.count_pos.mpr hm
  have hle : (G p).1.count (.iref ip) ≤ total G (.iref ip) :=
    Finset.single_le_sum (f := fun q => (G q).1.count (.iref ip)) (fun _ _ => Nat.zero_le _)
      (Finset.mem_univ p)
  rw [h.books.iref ip]
  omega

end Unique

section Reach

variable {sb : Superblock} {disk : Nat → Block} {c : Machine.Config sig Proc State Call Int}

theorem boot_unique (disk : Nat → Block) : Unique (boot disk) := by
  have h0 {i : Slot} (hi : 0 < ((boot disk).ident i).ref) : i = 0 := by
    by_contra hne
    simp [boot, hne] at hi
  exact fun i j hi hj _ _ => (h0 hi).trans (h0 hj).symm

/-- **An inode in use has one entry**, in every interleaving of any calls. -/
theorem unique_of_reach (h : (system sb).Reach (boot disk) c) : Unique c.state := by
  induction h with
  | refl => exact boot_unique disk
  | tail hr hs ih =>
    cases hs with
    | call ht hi => exact ih
    | ret ht => exact ih
    | idle ht hi =>
      obtain ⟨-, rfl⟩ := hi
      exact ih
    | @op s s' th t i o k r ht ho =>
      obtain ⟨ω, he⟩ := ho
      obtain ⟨G, hG⟩ := books hr
      refine Unique.perform ih (fun ip hip => ?_) he
      subst hip
      have hn := Call.need_le (hG.allow ht)
      exact hG.inv.ref_of_mem (Multiset.mem_of_le hn (Multiset.mem_singleton_self _))

def State.Entry (s : State) (dev inum : Nat) (i : Slot) : Prop :=
  0 < (s.ident i).ref ∧ (s.ident i).dev = dev ∧ (s.ident i).inum = inum

/-- **`iget` gives everybody the same entry**, in every interleaving of any calls: the one of the
inode if it is in use, and after it there is no other. -/
theorem iget_entry (h : (system sb).Reach (boot disk) c) {ω : Oracle} {p : Proc} {dev inum : Nat}
    {ip i : Slot} {s' : State} (he : perform ω p c.state (.iget dev inum) = .ok (ip, s')) :
    (c.state.Entry dev inum i → i = ip) ∧ (s'.Entry dev inum i ↔ i = ip) := by
  have hu := unique_of_reach h
  have hu' : Unique s' := hu.perform (fun _ ho => by cases ho) he
  have hip : s'.Entry dev inum ip ∧ (c.state.Entry dev inum i → i = ip) := by
    simp only [perform] at he
    split at he
    · next hc =>
      obtain ⟨rfl, rfl⟩ := ok_inj he
      have hr := List.find?_some hc
      obtain ⟨hr, hd, hn⟩ := of_decide_eq_true hr
      refine ⟨?_, fun hi => hu _ _ hi.1 hr (hi.2.1.trans hd.symm) (hi.2.2.trans hn.symm)⟩
      simp [State.Entry, State.addRef, State.setIdent, hd, hn]
      omega
    · next hc _ =>
      obtain ⟨rfl, rfl⟩ := ok_inj he
      refine ⟨by simp [State.Entry, State.recycle, State.setIdent, State.setNode], fun hi => ?_⟩
      have hno := List.find?_eq_none.mp hc i (List.mem_finRange i)
      exact absurd (by simpa [State.Entry] using hi) hno
    · cases he
  exact ⟨hip.2, fun hi => hu' i ip hi.1 hip.1.1 (hi.2.1.trans hip.1.2.1.symm)
    (hi.2.2.trans hip.1.2.2.symm), by rintro rfl; exact hip.1⟩

def chainRound (k : Nat) : List (Oracle × Proc × Call) :=
  [({ plenty with proc := some (Fin.ofNat NPROC (k + 1), k + 2) }, Fin.ofNat NPROC k, .fork),
    (plenty, Fin.ofNat NPROC (k + 1), chdirA)]

/-- At an `iget` for the inode that is the current directory of the second process. -/
def atIgetCwd (s : State) : Op → Bool
  | .iget dev inum => (s.cached dev inum).isSome && s.cached dev inum == s.cwd 1
  | _ => false

/-- The child of the first process has gone down, and the first process follows it. -/
theorem iget_entry_chdir : ∃ c dev inum k ip s', (system chainSb).Reach (boot chainDisk) c ∧
    c.thread 0 = some (chdirA, .op (.iget dev inum) k) ∧ c.state.cwd 1 = some ip ∧
    perform plenty 0 c.state (.iget dev inum) = .ok (ip, s') ∧
    ∀ i, s'.Entry dev inum i ↔ i = ip := by
  have hg : gets chainSb (chainRound 0) atIgetCwd plenty 0 chdirA (boot chainDisk) = true := by
    decide +kernel
  obtain ⟨o, k, s, hr, ho⟩ := reach_gets hg
  cases o with
  | iget dev inum =>
    simp only [atIgetCwd, Bool.and_eq_true, beq_iff_eq, Option.isSome_iff_exists] at ho
    obtain ⟨⟨ip, hip⟩, hcwd⟩ := ho
    have he : perform plenty 0 s (.iget dev inum) = .ok (ip, s.addRef ip 1) := by
      simp only [perform, hip]
    have ht := Function.update_self (β := fun _ => Option (Call × FsM Int)) (0 : Proc)
      (some (chdirA, .op (.iget dev inum) k)) fun _ => none
    exact ⟨_, dev, inum, k, ip, _, hr, ht, hcwd ▸ hip, he, fun i => (iget_entry hr he).2⟩
  | _ => exact absurd ho Bool.false_ne_true

/-! ## When the table is full -/

def inUse (s : State) : Finset (Nat × Nat) :=
  ({ip : Slot | 0 < (s.ident ip).ref} : Finset Slot).image
    fun ip => ((s.ident ip).dev, (s.ident ip).inum)

/-- There is room for an inode: it is in use, or fewer than `NINODE` are. -/
def Room (s : State) (dev inum : Nat) : Prop :=
  (dev, inum) ∈ inUse s ∨ (inUse s).card < NINODE

theorem card_inUse (h : Unique s) :
    (inUse s).card = ({ip : Slot | 0 < (s.ident ip).ref} : Finset Slot).card := by
  refine Finset.card_image_of_injOn fun i hi j hj he => ?_
  simp only [Finset.coe_filter, Finset.mem_univ, true_and, Set.mem_ofPred_eq] at hi hj
  obtain ⟨hd, hn⟩ := Prod.mk.inj he
  exact h i j hi hj hd hn

theorem mem_inUse : (dev, inum) ∈ inUse s ↔ s.cached dev inum ≠ none := by
  rw [State.cached, ne_eq, List.find?_eq_none]
  simp [inUse]

/-- Between calls the inodes in use are the current directories and the open files. Within a call a
lookup has references of its own. -/
theorem mem_inUse_iff (h : (system sb).Reach (boot disk) c) (hc : ∀ p, c.thread p = none) :
    (dev, inum) ∈ inUse c.state ↔
      ∃ ip, (c.state.ident ip).dev = dev ∧ (c.state.ident ip).inum = inum ∧
        ((∃ p, c.state.cwd p = some ip) ∨ ∃ f, 0 < (c.state.file f).ref ∧
          ((c.state.file f).type = .inode ∨ (c.state.file f).type = .device) ∧
          (c.state.file f).ip = ip) := by
  obtain ⟨G, hG⟩ := books h
  have hcount := hG.inv.counted fun p => hG.rest (hc p)
  have hpos (ip : Slot) : 0 < (c.state.ident ip).ref ↔ (∃ p, c.state.cwd p = some ip) ∨
      ∃ f, 0 < (c.state.file f).ref ∧ ((c.state.file f).type = .inode ∨
        (c.state.file f).type = .device) ∧ (c.state.file f).ip = ip := by
    rw [hcount.inode ip]
    norm_cast
    rw [Nat.add_pos_iff_pos_or_pos, Finset.card_pos, Finset.card_pos]
    simp only [Finset.filter_nonempty_iff, Finset.mem_univ, true_and]
  simp only [inUse, Finset.mem_image, Finset.mem_filter, Finset.mem_univ, true_and, hpos,
    Prod.mk.injEq]
  exact exists_congr fun ip => and_rotate

theorem card_lt_iff (h : Unique s) (hn : ∀ ip, 0 ≤ (s.ident ip).ref) :
    (inUse s).card < NINODE ↔ s.empty ≠ none := by
  rw [card_inUse h, State.empty, ne_eq, List.find?_eq_none]
  have hall : ({ip : Slot | 0 < (s.ident ip).ref} : Finset Slot).card < NINODE ↔
      ({ip : Slot | 0 < (s.ident ip).ref} : Finset Slot) ≠ Finset.univ := by
    have hcard := Finset.card_lt_iff_ne_univ ({ip : Slot | 0 < (s.ident ip).ref} : Finset Slot)
    rwa [Fintype.card_fin] at hcard
  rw [hall, ne_eq, not_iff_not, Finset.eq_univ_iff_forall]
  refine forall_congr' fun ip => ?_
  have := hn ip
  simp
  omega

def IgetPanics (c : Machine.Config sig Proc State Call Int) (p : Proc) : Prop :=
  ∃ i dev inum k, c.thread p = some (i, .op (.iget dev inum) k) ∧
    ∃ ω, perform ω p c.state (.iget dev inum) = .error (.panic .igetNoInodes)

/-- **The table is full when `NINODE` inodes are in use**: in every interleaving of any calls, a
process panics in `iget` exactly when there is no room for the inode it asks for. -/
theorem igetPanics_iff (h : (system sb).Reach (boot disk) c) (p : Proc) : IgetPanics c p ↔
    ∃ i dev inum k, c.thread p = some (i, .op (.iget dev inum) k) ∧ ¬Room c.state dev inum := by
  obtain ⟨G, hG⟩ := books h
  have hn (ip : Slot) : 0 ≤ (c.state.ident ip).ref := by
    rw [hG.inv.books.iref ip]
    omega
  refine exists_congr fun i => exists_congr fun dev => exists_congr fun inum =>
    exists_congr fun k => and_congr_right fun _ => ?_
  rw [Room, mem_inUse, card_lt_iff (unique_of_reach h) hn, not_or, not_not, not_not]
  simp only [perform]
  split
  · next hc => simp [hc]
  · next hc he => simp [hc, he]
  · next hc he => exact ⟨fun _ => ⟨hc, he⟩, fun _ => ⟨plenty, rfl⟩⟩

end Reach

/-! ## Fifty directories

A process in each directory of the chain: everybody forks, and the child goes one further down. The
one that would be in the fifty-first directory does not get there.
-/

def atIget (_ : State) : Op → Bool
  | .iget _ _ => true
  | _ => false

def atFullTable (s : State) : Op → Bool
  | .iget dev inum => (s.cached dev inum).isNone && s.empty.isNone
  | _ => false

/-- The `chdir` of the first process, at its first `iget`. -/
theorem igetPanics_iff_chdir : ∃ c i dev inum k, (system chainSb).Reach (boot chainDisk) c ∧
    c.thread 0 = some (i, .op (.iget dev inum) k) ∧ (IgetPanics c 0 ↔
      ∃ i dev inum k, c.thread 0 = some (i, .op (.iget dev inum) k) ∧ ¬Room c.state dev inum) := by
  have hg : gets chainSb [] atIget plenty 0 chdirA (boot chainDisk) = true := by decide +kernel
  obtain ⟨o, k, s', hr, ho⟩ := reach_gets hg
  cases o with
  | iget dev inum =>
    have ht := Function.update_self (β := fun _ => Option (Call × FsM Int)) (0 : Proc)
      (some (chdirA, .op (.iget dev inum) k)) fun _ => none
    exact ⟨_, chdirA, dev, inum, k, hr, ht, igetPanics_iff hr 0⟩
  | _ => exact absurd ho Bool.false_ne_true

/-- **User programs exhaust the table**: fifty processes in fifty directories, and one more. -/
theorem iget_exhausted : ∃ c p, (system chainSb).Reach (boot chainDisk) c ∧ IgetPanics c p := by
  have hg : gets chainSb ((List.range 50).flatMap chainRound).dropLast atFullTable plenty 50 chdirA
      (boot chainDisk) = true := by decide +kernel
  obtain ⟨o, k, s', hr, ho⟩ := reach_gets hg
  cases o with
  | iget dev inum =>
    have ht := Function.update_self (β := fun _ => Option (Call × FsM Int)) (50 : Proc)
      (some (chdirA, .op (.iget dev inum) k)) fun _ => none
    simp only [atFullTable, Bool.and_eq_true, Option.isNone_iff_eq_none] at ho
    exact ⟨_, 50, hr, chdirA, dev, inum, k, ht, plenty, by simp only [perform, ho.1, ho.2]⟩
  | _ => exact absurd ho Bool.false_ne_true

end ZeptOS.Fs
