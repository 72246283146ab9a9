import ZeptOS.Mem.System

/-!
# Open files and pipes

A pipe's page is held by the file table: it is allocated with the two files of
`pipealloc`, and freed by the `fileclose` that closes the second end. Which end that is
the code reads from two flags inside the page, so the invariant ties the flags to the
files: an end is marked open exactly while a file for it has references.

References are counted as functions from file numbers: an entry of some `ofile` is worth
`Pi.single f 1`. `KernelOk` holds for any count, since a system call holds references of
its own between `filealloc` and `fdalloc`; between system calls the count is `Sys.opens`.
-/

namespace ZeptOS.Mem

open Lib Lib.Prog Function Multiset

variable {s s' : Sys} {f g n : Nat} {file file' : Nat → File} {mem mem' : Nat → Page}
  {cnt cnt' : Nat → Nat} {c : Board} {B : Multiset Nat} {E : Panic → Prop}

def File.isPipe (f : File) : Prop := f.ref ≠ 0 ∧ f.type = .pipe

instance (f : File) : Decidable f.isPipe := inferInstanceAs (Decidable (_ ∧ _))

def pipePages (file : Nat → File) : Finset Nat :=
  ((Finset.range NFILE).filter fun f => (file f).isPipe).image fun f => (file f).pipe

variable {q : Nat}

theorem mem_pipePages :
    q ∈ pipePages file ↔ ∃ f, f < NFILE ∧ (file f).isPipe ∧ (file f).pipe = q := by
  unfold pipePages
  rw [Finset.mem_image]
  constructor
  · rintro ⟨f, hf, hq⟩
    rw [Finset.mem_filter, Finset.mem_range] at hf
    exact ⟨f, hf.1, hf.2, hq⟩
  · rintro ⟨f, h1, h2, hq⟩
    exact ⟨f, Finset.mem_filter.mpr ⟨Finset.mem_range.mpr h1, h2⟩, hq⟩

def HasEnd (file : Nat → File) (q : Nat) (w : Bool) : Prop :=
  ∃ g, g < NFILE ∧ (file g).isPipe ∧ (file g).pipe = q ∧ (file g).writable = w

theorem mem_pipePages_iff : q ∈ pipePages file ↔ ∃ w, HasEnd file q w := by
  rw [mem_pipePages]
  constructor
  · rintro ⟨g, h1, h2, h3⟩
    exact ⟨_, g, h1, h2, h3, rfl⟩
  · rintro ⟨w, g, h1, h2, h3, -⟩
    exact ⟨g, h1, h2, h3⟩

structure FilesOk (file : Nat → File) (mem : Nat → Page) (cnt : Nat → Nat) : Prop where
  ref : ∀ f, f < NFILE → (file f).ref = cnt f
  idle : ∀ f, f < NFILE → (file f).ref = 0 → (file f).type = .none
  ends : ∀ f g, f < NFILE → g < NFILE → (file f).isPipe → (file g).isPipe →
    (file f).pipe = (file g).pipe → (file f).writable = (file g).writable → f = g
  flag : ∀ q ∈ pipePages file, ∀ w, (mem q).ld (pipeEnd w) 4 ≠ 0 ↔ HasEnd file q w

structure KernelOk (c : Board) (s : Sys) (B : Multiset Nat) (cnt : Nat → Nat) : Prop where
  mem : MemOk c s ((pipePages s.file).val + B)
  files : FilesOk s.file s.vm.mem cnt

theorem FilesOk.mem_congr (h : FilesOk file mem cnt) (hm : ∀ q ∈ pipePages file, mem' q = mem q) :
    FilesOk file mem' cnt :=
  ⟨h.ref, h.idle, h.ends, fun q hq w => by rw [hm q hq]; exact h.flag q hq w⟩

/-- Only the number of references to `f` changes, and not from or to 0 if it is a pipe. -/
theorem FilesOk.setRef (h : FilesOk file mem cnt) (h1 : (file f).type = .pipe → (file f).ref ≠ 0)
    (h2 : n ≠ 0) : pipePages (update file f { file f with ref := n }) = pipePages file ∧
      FilesOk (update file f { file f with ref := n }) mem (update cnt f n) := by
  obtain ⟨file', he⟩ : ∃ file', file' = update file f { file f with ref := n } := ⟨_, rfl⟩
  rw [← he]
  have hself : file' f = { file f with ref := n } := by rw [he]; exact update_self ..
  have hother : ∀ g, g ≠ f → file' g = file g := fun g hg => by
    rw [he]; exact update_of_ne hg ..
  have hrest : ∀ g, (file' g).type = (file g).type ∧ (file' g).pipe = (file g).pipe ∧
      (file' g).writable = (file g).writable := by
    intro g
    by_cases hg : g = f
    · rw [hg, hself]
      exact ⟨rfl, rfl, rfl⟩
    · rw [hother g hg]
      exact ⟨rfl, rfl, rfl⟩
  have hpipe : ∀ g, (file' g).isPipe ↔ (file g).isPipe := by
    intro g
    by_cases hg : g = f
    · rw [hg, hself]
      exact ⟨fun hh => ⟨h1 hh.2, hh.2⟩, fun hh => ⟨h2, hh.2⟩⟩
    · rw [hother g hg]
  have hpages : pipePages file' = pipePages file := by
    ext q
    rw [mem_pipePages, mem_pipePages]
    refine exists_congr fun g => and_congr_right fun _ => ?_
    rw [hpipe g, (hrest g).2.1]
  have hend : ∀ q w, HasEnd file' q w ↔ HasEnd file q w := by
    intro q w
    refine exists_congr fun g => and_congr_right fun _ => ?_
    rw [hpipe g, (hrest g).2.1, (hrest g).2.2]
  refine ⟨hpages, ?_, ?_, ?_, ?_⟩
  · intro g hg
    by_cases hgf : g = f
    · rw [hgf, hself, update_self]
    · rw [hother g hgf, update_of_ne hgf]
      exact h.ref g hg
  · intro g hg h0
    by_cases hgf : g = f
    · rw [hgf, hself] at h0
      exact absurd h0 h2
    · rw [hother g hgf] at h0 ⊢
      exact h.idle g hg h0
  · intro g g' hg hg' hp hp' hq hw
    rw [(hrest g).2.1, (hrest g').2.1] at hq
    rw [(hrest g).2.2, (hrest g').2.2] at hw
    exact h.ends g g' hg hg' ((hpipe g).mp hp) ((hpipe g').mp hp') hq hw
  · intro q hq w
    rw [hpages] at hq
    rw [hend q w]
    exact h.flag q hq w

/-! ## Counting references -/

theorem single_self (f : Nat) : (Pi.single f 1 : Nat → Nat) f = 1 := Pi.single_eq_same ..

theorem single_of_ne (h : g ≠ f) : (Pi.single f 1 : Nat → Nat) g = 0 := Pi.single_eq_of_ne h ..

theorem FilesOk.cnt_congr (h : FilesOk file mem cnt) (he : ∀ g, g < NFILE → cnt' g = cnt g) :
    FilesOk file mem cnt' :=
  ⟨fun f hf => (h.ref f hf).trans (he f hf).symm, h.idle, h.ends, h.flag⟩

theorem update_single_add (n : Nat) (h : n = cnt f + 1) :
    ∀ g, (cnt + Pi.single f 1 : Nat → Nat) g = update cnt f n g := by
  intro g
  rw [Pi.add_apply]
  by_cases hg : g = f
  · rw [hg, single_self, update_self, h]
  · rw [single_of_ne hg, update_of_ne hg, Nat.add_zero]

theorem update_single_sub (n : Nat) (h : n = cnt f) :
    ∀ g, cnt g = update (cnt + Pi.single f 1) f n g := by
  intro g
  by_cases hg : g = f
  · rw [hg, update_self, h]
  · rw [update_of_ne hg, Pi.add_apply, single_of_ne hg, Nat.add_zero]

/-! ## `filedup` and `fileclose` -/

/-- Nothing but the file table, and pages of pipes, has changed. -/
structure FileStep (s s' : Sys) : Prop where
  proc : s'.proc = s.proc
  initproc : s'.initproc = s.initproc

theorem FileStep.refl (s : Sys) : FileStep s s := ⟨rfl, rfl⟩

theorem FileStep.trans {s'' : Sys} (h : FileStep s s') (h' : FileStep s' s'') : FileStep s s'' :=
  ⟨h'.proc.trans h.proc, h'.initproc.trans h.initproc⟩

theorem MemOk.files {X X' : Multiset Nat} (h : MemOk c s X) (hp : s'.proc = s.proc)
    (hv : s'.vm = s.vm) (hX : X' = X) : MemOk c s' X' := by
  refine h.kernel (fun i _ => by rw [hp]; exact SameMemory.refl _) (fun q _ => by rw [hv]) ?_
  rw [hX, hv]

theorem KernelOk.setRef (h : KernelOk c s B cnt) (h1 : (s.file f).type = .pipe → (s.file f).ref ≠ 0)
    (h2 : n ≠ 0) : KernelOk c (s.setFile f { s.file f with ref := n }) B (update cnt f n) := by
  obtain ⟨hpages, hfiles⟩ := h.files.setRef h1 h2
  refine ⟨h.mem.files rfl rfl ?_, hfiles⟩
  rw [show (s.setFile f { s.file f with ref := n }).file =
    update s.file f { s.file f with ref := n } from rfl, hpages]

theorem KernelOk.cnt_congr (h : KernelOk c s B cnt) (he : ∀ g, g < NFILE → cnt' g = cnt g) :
    KernelOk c s B cnt' :=
  ⟨h.mem, h.files.cnt_congr he⟩

theorem filedup_spec (h : KernelOk c s B cnt) (hf : f < NFILE) (hpos : cnt f ≠ 0) :
    wp (filedup f) E (fun _ s' => KernelOk c s' B (cnt + Pi.single f 1) ∧ FileStep s s' ∧
      s'.vm = s.vm) s := by
  have href := h.files.ref f hf
  unfold filedup
  rw [wp_bind, wp_get, if_neg (by omega), wp_set]
  refine ⟨?_, ⟨rfl, rfl⟩, rfl⟩
  have hset := h.setRef (f := f) (n := (s.file f).ref + 1) (fun _ => by omega) (by omega)
  exact hset.cnt_congr fun g _ => update_single_add ((s.file f).ref + 1) (by omega) g

/-! The last reference to one end of a pipe. -/

variable {w : Bool}

abbrev dropFile (file : Nat → File) (f : Nat) : Nat → File :=
  Function.update file f { file f with ref := 0, type := .none }

theorem dropFile_self : ¬ (dropFile file f f).isPipe := by
  unfold dropFile
  rw [update_self]
  exact fun h => h.1 rfl

theorem dropFile_of_ne (h : g ≠ f) : dropFile file f g = file g :=
  update_of_ne h ..

theorem isPipe_dropFile (h : (dropFile file f g).isPipe) : g ≠ f := by
  rintro rfl
  exact dropFile_self h

theorem hasEnd_dropFile : HasEnd (dropFile file f) q w ↔
      ∃ g, g < NFILE ∧ g ≠ f ∧ (file g).isPipe ∧ (file g).pipe = q ∧ (file g).writable = w := by
  refine exists_congr fun g => and_congr_right fun _ => ?_
  constructor
  · rintro ⟨h1, h2, h3⟩
    have hne := isPipe_dropFile h1
    rw [dropFile_of_ne hne] at h1 h2 h3
    exact ⟨hne, h1, h2, h3⟩
  · rintro ⟨hne, h1, h2, h3⟩
    rw [dropFile_of_ne hne]
    exact ⟨h1, h2, h3⟩

theorem FilesOk.drop (h : FilesOk file mem (cnt + Pi.single f 1)) (hcnt : cnt f = 0)
    (hflag : ∀ q ∈ pipePages (dropFile file f), ∀ w,
      (mem' q).ld (pipeEnd w) 4 ≠ 0 ↔ HasEnd (dropFile file f) q w) :
    FilesOk (dropFile file f) mem' cnt := by
  refine ⟨?_, ?_, ?_, hflag⟩
  · intro g hg
    by_cases hgf : g = f
    · rw [hgf, hcnt]
      unfold dropFile
      rw [update_self]
    · rw [dropFile_of_ne hgf, h.ref g hg, Pi.add_apply, single_of_ne hgf, Nat.add_zero]
  · intro g hg h0
    by_cases hgf : g = f
    · rw [hgf]
      unfold dropFile
      rw [update_self]
    · rw [dropFile_of_ne hgf] at h0 ⊢
      exact h.idle g hg h0
  · intro g g' hg hg' hp hp' hq hw
    have h1 := isPipe_dropFile hp
    have h2 := isPipe_dropFile hp'
    rw [dropFile_of_ne h1] at hp hq hw
    rw [dropFile_of_ne h2] at hp' hq hw
    exact h.ends g g' hg hg' hp hp' hq hw

theorem FilesOk.drop_other (h : FilesOk file mem (cnt + Pi.single f 1)) (hcnt : cnt f = 0)
    (hp : ¬ (file f).isPipe) :
    pipePages (dropFile file f) = pipePages file ∧ FilesOk (dropFile file f) mem cnt := by
  have hend : ∀ q w, HasEnd (dropFile file f) q w ↔ HasEnd file q w := by
    intro q w
    rw [hasEnd_dropFile]
    refine exists_congr fun g => and_congr_right fun _ => ?_
    constructor
    · exact fun hh => hh.2
    · rintro hh
      refine ⟨?_, hh⟩
      rintro rfl
      exact hp hh.1
  have hpages : pipePages (dropFile file f) = pipePages file := by
    ext q
    rw [mem_pipePages_iff, mem_pipePages_iff]
    exact exists_congr fun w => hend q w
  refine ⟨hpages, h.drop hcnt fun q hq w => ?_⟩
  rw [hend q w]
  rw [hpages] at hq
  exact h.flag q hq w

theorem hasEnd_drop_of_ne (hq : q ≠ (file f).pipe) :
    HasEnd (dropFile file f) q w ↔ HasEnd file q w := by
  rw [hasEnd_dropFile]
  refine exists_congr fun g => and_congr_right fun _ => ?_
  constructor
  · exact fun hh => hh.2
  · rintro hh
    refine ⟨?_, hh⟩
    rintro rfl
    exact hq hh.2.1.symm

theorem FilesOk.hasEnd_drop_self (h : FilesOk file mem cnt) (hf : f < NFILE) (hp : (file f).isPipe)
    : HasEnd (dropFile file f) (file f).pipe w ↔
      w = !(file f).writable ∧ HasEnd file (file f).pipe w := by
  rw [hasEnd_dropFile]
  constructor
  · rintro ⟨g, h1, h2, h3, h4, h5⟩
    refine ⟨?_, g, h1, h3, h4, h5⟩
    by_contra hw
    refine h2 (h.ends g f h1 hf h3 hp h4 ?_)
    rw [h5]
    exact Bool.ne_not.mp hw
  · rintro ⟨hw, g, h1, h3, h4, h5⟩
    refine ⟨g, h1, ?_, h3, h4, h5⟩
    rintro rfl
    exact Bool.self_ne_not _ (h5.trans hw)

theorem pipeEnd_disj {w' : Bool} (h : w ≠ w') :
    pipeEnd w + 4 ≤ pipeEnd w' ∨ pipeEnd w' + 4 ≤ pipeEnd w := by
  cases w <;> cases w' <;> first | exact absurd rfl h | decide

theorem FilesOk.flags_closed (h : FilesOk file mem cnt) (hf : f < NFILE) (hp : (file f).isPipe)
    (w : Bool) : ((mem (file f).pipe).st (pipeEnd (file f).writable) 4 0).ld (pipeEnd w) 4 ≠ 0 ↔
      HasEnd (dropFile file f) (file f).pipe w := by
  rw [h.hasEnd_drop_self hf hp]
  by_cases hw : w = (file f).writable
  · rw [hw, Bytes.ld_st_self]
    exact ⟨fun hh => absurd rfl hh, fun hh => absurd hh.1 (Bool.self_ne_not _)⟩
  · have hne : w = !(file f).writable := Bool.eq_not_of_ne hw
    rw [Bytes.ld_st_disj (pipeEnd_disj hw), h.flag _ (mem_pipePages.mpr ⟨f, hf, hp, rfl⟩) w]
    exact ⟨fun hh => ⟨hne, hh⟩, fun hh => hh.2⟩

theorem FilesOk.drop_pipe (h : FilesOk file mem (cnt + Pi.single f 1))
    (hcnt : cnt f = 0) (hf : f < NFILE) (hp : (file f).isPipe)
    (hself : (file f).pipe ∈ pipePages (dropFile file f) → mem' (file f).pipe =
      (mem (file f).pipe).st (pipeEnd (file f).writable) 4 0)
    (hother : ∀ q, q ≠ (file f).pipe → mem' q = mem q) : FilesOk (dropFile file f) mem' cnt := by
  refine h.drop hcnt fun q hq w => ?_
  by_cases hqf : q = (file f).pipe
  · rw [hqf] at hq ⊢
    rw [hself hq]
    exact h.flags_closed hf hp w
  · rw [hother q hqf, hasEnd_drop_of_ne hqf]
    refine h.flag q ?_ w
    rw [mem_pipePages_iff] at hq ⊢
    obtain ⟨w', hw'⟩ := hq
    exact ⟨w', (hasEnd_drop_of_ne hqf).mp hw'⟩

theorem pipePages_drop (hp : (file f).isPipe) (hf : f < NFILE) : pipePages (dropFile file f) =
      if (file f).pipe ∈ pipePages (dropFile file f) then pipePages file
      else (pipePages file).erase (file f).pipe := by
  ext q
  have hmem : (file f).pipe ∈ pipePages file := mem_pipePages.mpr ⟨f, hf, hp, rfl⟩
  by_cases hq : q = (file f).pipe
  · rw [hq]
    split
    · rename_i hin
      exact ⟨fun _ => hmem, fun _ => hin⟩
    · rename_i hout
      exact ⟨fun hh => absurd hh hout, fun hh => absurd rfl (Finset.mem_erase.mp hh).1⟩
  · have hiff : q ∈ pipePages (dropFile file f) ↔ q ∈ pipePages file := by
      rw [mem_pipePages_iff, mem_pipePages_iff]
      exact exists_congr fun w => hasEnd_drop_of_ne hq
    rw [hiff]
    split
    · rfl
    · rw [Finset.mem_erase]
      exact ⟨fun hh => ⟨hq, hh⟩, fun hh => hh.2⟩

theorem wp_pipeclose {vm : Vm} {Q : Unit → Vm → Prop} (hq : IsPage c q)
    (hopen : ∀ pg, pg = (vm.mem q).st (pipeEnd w) 4 0 → (∃ w', pg.ld (pipeEnd w') 4 ≠ 0) →
      Q () (vm.put q pg))
    (hfree : ∀ pg, pg = (vm.mem q).st (pipeEnd w) 4 0 → (∀ w', pg.ld (pipeEnd w') 4 = 0) →
      Q () ((vm.put q pg).give q)) : wp (pipeclose c q w) E Q vm := by
  unfold pipeclose
  rw [wp_bind, wp_modify, wp_bind, wp_get, Vm.put_mem_self]
  split
  · rename_i h0
    rw [wp_kfree hq]
    refine hfree _ rfl fun w' => ?_
    cases w' with
    | false => exact h0.1
    | true => exact h0.2
  · rename_i h0
    refine hopen _ rfl ?_
    by_contra hne
    push Not at hne
    exact h0 ⟨hne false, hne true⟩

/-- **`fileclose`** drops one reference. -/
theorem fileclose_spec (h : KernelOk c s B (cnt + Pi.single f 1)) (hf : f < NFILE) :
    wp (fileclose c f) E (fun _ s' => KernelOk c s' B cnt ∧ FileStep s s') s := by
  have href := h.files.ref f hf
  rw [Pi.add_apply, single_self] at href
  unfold fileclose
  rw [wp_bind, wp_get]
  dsimp only
  rw [if_neg (by omega)]
  by_cases hmany : (s.file f).ref - 1 > 0
  · rw [if_pos hmany, wp_set]
    have hset := h.setRef (f := f) (n := (s.file f).ref - 1) (fun _ => by omega) (by omega)
    exact ⟨hset.cnt_congr fun g _ => update_single_sub ((s.file f).ref - 1) (by omega) g,
      rfl, rfl⟩
  · have hcnt : cnt f = 0 := by omega
    rw [if_neg hmany, wp_bind, wp_set]
    by_cases hpipe : (s.file f).type = .pipe
    · have hp : (s.file f).isPipe := ⟨by omega, hpipe⟩
      have hin : (s.file f).pipe ∈ pipePages s.file := mem_pipePages.mpr ⟨f, hf, hp, rfl⟩
      have hX : (s.file f).pipe ∈ (pipePages s.file).val + B := subset_add_left hin
      have hpg : IsPage c (s.file f).pipe := h.mem.own.isPage (subset_add_right hX)
      have hproc : ∀ q ∈ s.procPages c, q ≠ (s.file f).pipe := by
        rintro q hq rfl
        exact h.mem.not_proc hX hq
      have hflag := h.files.flags_closed hf hp
      have hdrop := pipePages_drop hp hf
      rw [if_pos hpipe, wp_onVm]
      refine wp_pipeclose hpg ?_ ?_
      · rintro pg hpgv ⟨w, hw⟩
        have hw : pg.ld (pipeEnd w) 4 ≠ 0 := hw
        have hleft : (s.file f).pipe ∈ pipePages (dropFile s.file f) := by
          rw [hpgv] at hw
          exact mem_pipePages_iff.mpr ⟨w, (hflag w).mp hw⟩
        rw [if_pos hleft] at hdrop
        refine ⟨⟨?_, ?_⟩, rfl, rfl⟩
        · refine h.mem.kernel (fun i _ => SameMemory.refl _)
            (fun q hq => Vm.put_mem_of_ne (hproc q hq)) ?_
          exact congrArg (fun X => X.val + B + (↑s.vm.freelist : Multiset Nat)) hdrop
        · refine h.files.drop_pipe hcnt hf hp (fun _ => ?_) fun q hq => Vm.put_mem_of_ne hq
          exact Vm.put_mem_self.trans hpgv
      · intro pg hpgv hzero
        have hgone : (s.file f).pipe ∉ pipePages (dropFile s.file f) := by
          rw [mem_pipePages_iff]
          rintro ⟨w, hw⟩
          refine (hflag w).mpr hw ?_
          have := hzero w
          rwa [hpgv] at this
        rw [if_neg hgone] at hdrop
        refine ⟨⟨?_, ?_⟩, rfl, rfl⟩
        · refine h.mem.kernel (fun i _ => SameMemory.refl _) (fun q hq => ?_) ?_
          · exact (Vm.give_mem_of_ne (hproc q hq)).trans (Vm.put_mem_of_ne (hproc q hq))
          · have he : (pipePages s.file).val =
                (s.file f).pipe ::ₘ ((pipePages s.file).erase (s.file f).pipe).val := by
              rw [Finset.erase_val, cons_erase hin]
            calc (pipePages (dropFile s.file f)).val + B + (↑((s.file f).pipe :: s.vm.freelist) : Multiset Nat)
                = ((pipePages s.file).erase (s.file f).pipe).val + B +
                    ({(s.file f).pipe} + ↑s.vm.freelist) := by rw [hdrop]; rfl
              _ = {(s.file f).pipe} + ((pipePages s.file).erase (s.file f).pipe).val + B +
                    ↑s.vm.freelist := by abel
              _ = (pipePages s.file).val + B + ↑s.vm.freelist := by
                    rw [singleton_add, ← he]
        · refine h.files.drop_pipe hcnt hf hp (fun hh => absurd hh hgone) fun q hq => ?_
          exact (Vm.give_mem_of_ne hq).trans (Vm.put_mem_of_ne hq)
    · rw [if_neg hpipe, wp_pure]
      obtain ⟨hpages, hfiles⟩ := h.files.drop_other hcnt fun hh => hpipe hh.2
      refine ⟨⟨?_, hfiles⟩, rfl, rfl⟩
      exact h.mem.files rfl rfl (congrArg (fun X => X.val + B) hpages)

/-! ## `filealloc` and `pipealloc` -/

inductive FileAlloced (c : Board) (s s' : Sys) (B : Multiset Nat) (cnt : Nat → Nat) :
    Option Nat → Prop where
  | none (same : s' = s) : FileAlloced c s s' B cnt none
  | some {f : Nat} (lt : f < NFILE) (unused : cnt f = 0)
      (ok : KernelOk c s' B (cnt + Pi.single f 1)) (step : FileStep s s')
      (type : (s'.file f).type = .none) (others : ∀ g, g ≠ f → s'.file g = s.file g) :
      FileAlloced c s s' B cnt (some f)

theorem filealloc_spec (h : KernelOk c s B cnt) :
    wp filealloc E (fun res s' => FileAlloced c s s' B cnt res) s := by
  unfold filealloc
  rw [wp_bind, wp_get]
  cases hfind : (List.range NFILE).find? fun f => (s.file f).ref == 0 with
  | none => exact .none rfl
  | some f =>
    have hf : f < NFILE := List.mem_range.mp (List.mem_of_find?_eq_some hfind)
    have h0 : (s.file f).ref = 0 := by simpa using List.find?_some hfind
    have htype := h.files.idle f hf h0
    have hcnt : cnt f = 0 := (h.files.ref f hf).symm.trans h0
    have hset := h.setRef (f := f) (n := 1) (fun hh => by rw [htype] at hh; cases hh) (by decide)
    refine .some hf hcnt (hset.cnt_congr fun g _ => update_single_add 1 (by omega) g) ⟨rfl, rfl⟩ ?_ ?_
    · rw [show (s.setFile f { s.file f with ref := 1 }).file f = { s.file f with ref := 1 } from
        update_self ..]
      exact htype
    · intro g hg
      exact update_of_ne hg ..

theorem ld_emptyPipe (pg : Page) (w : Bool) : (emptyPipe pg).ld (pipeEnd w) 4 ≠ 0 := by
  unfold emptyPipe
  cases w with
  | false =>
    rw [show pipeEnd false = PIPE_READOPEN from rfl, Bytes.ld_st_disj (.inr (by decide)),
      Bytes.ld_st_disj (.inr (by decide)), Bytes.ld_st_disj (.inl (by decide)), Bytes.ld_st_self]
    decide
  | true =>
    rw [show pipeEnd true = PIPE_WRITEOPEN from rfl, Bytes.ld_st_disj (.inr (by decide)),
      Bytes.ld_st_disj (.inr (by decide)), Bytes.ld_st_self]
    decide

theorem FilesOk.newPipe {f0 f1 : Nat} (h : FilesOk file mem cnt) (h0 : f0 < NFILE) (h1 : f1 < NFILE)
    (hne : f0 ≠ f1) (hr0 : (file f0).ref ≠ 0) (hr1 : (file f1).ref ≠ 0)
    (ht0 : (file f0).type = .none) (ht1 : (file f1).type = .none) (hq : q ∉ pipePages file)
    (he0 : file' f0 = { file f0 with type := .pipe, writable := false, pipe := q })
    (he1 : file' f1 = { file f1 with type := .pipe, writable := true, pipe := q })
    (heg : ∀ g, g ≠ f0 → g ≠ f1 → file' g = file g)
    (hself : ∀ w, (mem' q).ld (pipeEnd w) 4 ≠ 0) (hmem : ∀ p, p ≠ q → mem' p = mem p) :
    pipePages file' = insert q (pipePages file) ∧ FilesOk file' mem' cnt := by
  have hp0 : ¬ (file f0).isPipe := fun hh => by cases ht0.symm.trans hh.2
  have hp1 : ¬ (file f1).isPipe := fun hh => by cases ht1.symm.trans hh.2
  -- a pipe of the new table is one of the two files, or an old pipe
  have hcases : ∀ g, (file' g).isPipe → (g = f0 ∨ g = f1) ∧ (file' g).pipe = q ∨
      (g ≠ f0 ∧ g ≠ f1) ∧ file' g = file g := by
    intro g hg
    by_cases hg0 : g = f0
    · exact .inl ⟨.inl hg0, by rw [hg0, he0]⟩
    · by_cases hg1 : g = f1
      · exact .inl ⟨.inr hg1, by rw [hg1, he1]⟩
      · exact .inr ⟨⟨hg0, hg1⟩, heg g hg0 hg1⟩
  have hnew : ∀ w, HasEnd file' q w := by
    intro w
    cases w with
    | false => exact ⟨f0, h0, by rw [he0]; exact ⟨hr0, rfl⟩, by rw [he0], by rw [he0]⟩
    | true => exact ⟨f1, h1, by rw [he1]; exact ⟨hr1, rfl⟩, by rw [he1], by rw [he1]⟩
  have hold : ∀ p w, p ≠ q → (HasEnd file' p w ↔ HasEnd file p w) := by
    intro p w hpq
    constructor
    · rintro ⟨g, hg, ha, hb, hc⟩
      rcases hcases g ha with ⟨-, hpipe⟩ | ⟨-, hsame⟩
      · exact absurd (hb.symm.trans hpipe) hpq
      · rw [hsame] at ha hb hc
        exact ⟨g, hg, ha, hb, hc⟩
    · rintro ⟨g, hg, ha, hb, hc⟩
      have hg0 : g ≠ f0 := by rintro rfl; exact hp0 ha
      have hg1 : g ≠ f1 := by rintro rfl; exact hp1 ha
      refine ⟨g, hg, ?_, ?_, ?_⟩ <;> rw [heg g hg0 hg1] <;> assumption
  have hpages : pipePages file' = insert q (pipePages file) := by
    ext p
    rw [Finset.mem_insert]
    by_cases hpq : p = q
    · rw [hpq]
      exact ⟨fun _ => .inl rfl, fun _ => mem_pipePages_iff.mpr ⟨true, hnew true⟩⟩
    · rw [mem_pipePages_iff, mem_pipePages_iff]
      constructor
      · rintro ⟨w, hw⟩
        exact .inr ⟨w, (hold p w hpq).mp hw⟩
      · rintro (hh | ⟨w, hw⟩)
        · exact absurd hh hpq
        · exact ⟨w, (hold p w hpq).mpr hw⟩
  have hsplit : ∀ g, g = f0 ∨ g = f1 ∨ (g ≠ f0 ∧ g ≠ f1) := by
    intro g
    by_cases hg0 : g = f0
    · exact .inl hg0
    · by_cases hg1 : g = f1
      · exact .inr (.inl hg1)
      · exact .inr (.inr ⟨hg0, hg1⟩)
  refine ⟨hpages, ?_, ?_, ?_, ?_⟩
  · intro g hg
    rcases hsplit g with rfl | rfl | ⟨hg0, hg1⟩
    · rw [he0]; exact h.ref _ hg
    · rw [he1]; exact h.ref _ hg
    · rw [heg g hg0 hg1]; exact h.ref g hg
  · intro g hg hz
    rcases hsplit g with rfl | rfl | ⟨hg0, hg1⟩
    · rw [he0] at hz; exact absurd hz hr0
    · rw [he1] at hz; exact absurd hz hr1
    · rw [heg g hg0 hg1] at hz ⊢; exact h.idle g hg hz
  · intro g g' hg hg' hp hp' hpq hw
    rcases hcases g hp with ⟨hgf, hgq⟩ | ⟨hgf, hsame⟩ <;>
      rcases hcases g' hp' with ⟨hgf', hgq'⟩ | ⟨hgf', hsame'⟩
    · rcases hgf with rfl | rfl <;> rcases hgf' with rfl | rfl
      · rfl
      · rw [he0, he1] at hw; cases hw
      · rw [he0, he1] at hw; cases hw
      · rfl
    · rw [hsame'] at hp' hpq
      exact absurd (mem_pipePages.mpr ⟨g', hg', hp', hpq.symm.trans hgq⟩) hq
    · rw [hsame] at hp hpq
      exact absurd (mem_pipePages.mpr ⟨g, hg, hp, hpq.trans hgq'⟩) hq
    · rw [hsame] at hp hpq hw
      rw [hsame'] at hp' hpq hw
      exact h.ends g g' hg hg' hp hp' hpq hw
  · intro p hp w
    by_cases hpq : p = q
    · rw [hpq]
      exact ⟨fun _ => hnew w, fun _ => hself w⟩
    · rw [hmem p hpq, hold p w hpq]
      refine h.flag p ?_ w
      rw [hpages, Finset.mem_insert] at hp
      exact hp.resolve_left hpq

inductive PipeAlloced (c : Board) (s s' : Sys) (B : Multiset Nat) (cnt : Nat → Nat) :
    Option (Nat × Nat) → Prop where
  | none (ok : KernelOk c s' B cnt) (step : FileStep s s') : PipeAlloced c s s' B cnt none
  | some {f0 f1 : Nat} (lt0 : f0 < NFILE) (lt1 : f1 < NFILE)
      (ok : KernelOk c s' B (cnt + Pi.single f0 1 + Pi.single f1 1)) (step : FileStep s s') :
      PipeAlloced c s s' B cnt (some (f0, f1))

theorem pipealloc_spec (h : KernelOk c s B cnt) :
    wp (pipealloc c) E (fun res s' => PipeAlloced c s s' B cnt res) s := by
  unfold pipealloc
  refine wp_call (filealloc_spec h) ?_
  intro res s₁ ha
  cases ha with
  | none same =>
    rw [same]
    exact .none h (FileStep.refl s)
  | @some f0 lt0 unused0 ok0 step0 type0 others0 =>
    refine wp_call (filealloc_spec ok0) ?_
    intro res s₂ ha
    cases ha with
    | none same =>
      rw [same]
      refine wp_call (fileclose_spec ok0 lt0) ?_
      rintro _ s₃ ⟨hk, hst⟩
      exact .none hk (step0.trans hst)
    | @some f1 lt1 unused1 ok1 step1 type1 others1 =>
      have hne : f0 ≠ f1 := by
        rintro rfl
        rw [Pi.add_apply, single_self] at unused1
        omega
      have hstep := step0.trans step1
      dsimp only
      rw [wp_bind, wp_onVm]
      cases hf : s₂.vm.freelist with
      | nil =>
        rw [wp_kalloc_nil hf, if_pos rfl]
        have hk : KernelOk c { s₂ with vm := { s₂.vm with oom := true } } B
            (cnt + Pi.single f1 1 + Pi.single f0 1) := by
          rw [add_right_comm]
          exact ⟨ok1.mem.kernel (fun _ _ => SameMemory.refl _) (fun _ _ => rfl) rfl, ok1.files⟩
        refine wp_call (fileclose_spec hk lt0) ?_
        rintro _ s₃ ⟨hk3, hst3⟩
        refine wp_call (fileclose_spec hk3 lt1) ?_
        rintro _ s₄ ⟨hk4, hst4⟩
        have hs : FileStep s₂ s₄ := ⟨hst4.proc.trans hst3.proc, hst4.initproc.trans hst3.initproc⟩
        exact .none hk4 (hstep.trans hs)
      | cons q rest =>
        have hq : IsPage c q := ok1.mem.own.free_isPage (hf ▸ List.mem_cons_self)
        have hfree : q ∉ s₂.procPages c + ((pipePages s₂.file).val + B) := fun hm =>
          ok1.mem.own.not_free hm (hf ▸ List.mem_cons_self)
        have hqp : q ∉ pipePages s₂.file := fun hm =>
          hfree (subset_add_right (subset_add_left hm))
        rw [wp_kalloc_cons hf, if_neg hq.pos]
        simp only [wp_bind, wp_onVm, wp_modify, wp_pure]
        have hr0 : (s₂.file f0).ref ≠ 0 := by
          rw [ok1.files.ref f0 lt0, Pi.add_apply, Pi.add_apply, single_self]
          omega
        have hr1 : (s₂.file f1).ref ≠ 0 := by
          rw [ok1.files.ref f1 lt1, Pi.add_apply, single_self]
          omega
        have ht0 : (s₂.file f0).type = .none := by
          rw [others1 f0 hne]
          exact type0
        obtain ⟨vm', hvm'⟩ : ∃ vm', vm' = (s₂.vm.take q rest).put q (emptyPipe ((s₂.vm.take q rest).mem q)) :=
          ⟨_, rfl⟩
        rw [← hvm']
        have hmem : ∀ p, p ≠ q → vm'.mem p = s₂.vm.mem p := by
          intro p hp
          rw [hvm', Vm.put_mem_of_ne hp, Vm.take_mem_of_ne hp]
        have hflag : ∀ w, (vm'.mem q).ld (pipeEnd w) 4 ≠ 0 := by
          intro w
          rw [hvm', Vm.put_mem_self]
          exact ld_emptyPipe _ w
        obtain ⟨s₃, hs₃⟩ : ∃ s₃, s₃ = ({ s₂ with vm := vm' } : Sys).setPipe f0 false q := ⟨_, rfl⟩
        have hf0 : s₃.file f0 = { s₂.file f0 with type := .pipe, writable := false, pipe := q } := by
          rw [hs₃]
          exact update_self ..
        have hfg : ∀ g, g ≠ f0 → s₃.file g = s₂.file g := by
          intro g hg
          rw [hs₃]
          exact update_of_ne hg ..
        obtain ⟨s₄, hs₄⟩ : ∃ s₄, s₄ = s₃.setPipe f1 true q := ⟨_, rfl⟩
        have hvm4 : s₄.vm = vm' := by rw [hs₄, hs₃]; rfl
        have hproc4 : s₄.proc = s₂.proc := by rw [hs₄, hs₃]; rfl
        have hinit4 : s₄.initproc = s₂.initproc := by rw [hs₄, hs₃]; rfl
        have hfile4 : pipePages s₄.file = insert q (pipePages s₂.file) ∧
            FilesOk s₄.file vm'.mem (cnt + Pi.single f0 1 + Pi.single f1 1) := by
          refine ok1.files.newPipe lt0 lt1 hne hr0 hr1 ht0 type1 hqp ?_ ?_ ?_ hflag hmem
          · rw [hs₄]
            exact (update_of_ne hne ..).trans hf0
          · rw [hs₄, ← hfg f1 hne.symm]
            exact update_self ..
          · intro g hg0 hg1
            rw [hs₄]
            exact (update_of_ne hg1 ..).trans (hfg g hg0)
        rw [← hs₃, ← hs₄]
        refine .some lt0 lt1 ⟨?_, ?_⟩ (hstep.trans ⟨hproc4, hinit4⟩)
        · refine ok1.mem.kernel (fun i _ => by rw [hproc4]; exact SameMemory.refl _) ?_ ?_
          · intro p hp
            rw [hvm4]
            refine hmem p ?_
            rintro rfl
            exact hfree (subset_add_left hp)
          · rw [hvm4, hfile4.1, Finset.insert_val_of_notMem hqp, hf,
              show vm'.freelist = rest by rw [hvm']; rfl, ← cons_coe,
              ← singleton_add, ← singleton_add]
            abel
        · rw [hvm4]
          exact hfile4.2

end ZeptOS.Mem
