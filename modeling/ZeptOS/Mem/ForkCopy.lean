import ZeptOS.Mem.ShadowStack

/-!
# What the child of a fork inherits

`fork` copies the trapframe, `ssp` included, and `uvmcopy` copies the pages below the
size. The shadow-stack page lies above, `proc_pagetable` has given the child a new one,
and nothing copies the parent's. So the child has the parent's whole user state only if
the parent's shadow stack happens to hold what a page from `kalloc` holds.
-/

namespace ZeptOS.Mem

open Lib Lib.Prog Multiset

variable {pg parent : Page} {q : Nat} {c : Board} {s : Sys} {B : Multiset Nat}

/-- The tables at `r` and `r'` map the page `v` alike, to different pages with the same
    contents. -/
structure SamePage (vm : Vm) (r r' v : Nat) : Prop where
  valid : isValid (vm.leaf r' v)
  flags : PTE_FLAGS (vm.leaf r' v) = PTE_FLAGS (vm.leaf r v)
  ne : PTE2PA (vm.leaf r' v) ≠ PTE2PA (vm.leaf r v)
  bytes : ∀ o, o < PGSIZE → vm.mem (PTE2PA (vm.leaf r' v)) o = vm.mem (PTE2PA (vm.leaf r v)) o

/-- The process `q` has the whole user state of `p`, but for `a0`. -/
structure WholeCopy (c : Board) (vm : Vm) (p q : Proc) : Prop where
  trapframe : ∀ o, o < tfSize c → ¬ (TF_A0 ≤ o ∧ o < TF_A0 + 8) →
    vm.mem q.trapframe o = vm.mem p.trapframe o
  a0 : (vm.mem q.trapframe).ld TF_A0 8 = 0
  pages : ∀ v, v < pages p.sz ∨ v = vShadow → SamePage vm p.pagetable q.pagetable v

/-! ## The trapframe -/

theorem childTrapframe_apply {o : Nat} (ho : o < tfSize c) (ha0 : ¬ (TF_A0 ≤ o ∧ o < TF_A0 + 8)) :
    childTrapframe c pg parent o = parent o := by
  unfold childTrapframe
  rw [Bytes.st_apply_of_not ha0]
  unfold Bytes.blit Bytes.slice
  rw [if_pos (Nat.zero_le o), Nat.sub_zero, List.getElem?_map, List.getElem?_range ho]
  simp only [Option.map_some, Option.getD_some, Nat.zero_add]

theorem childTrapframe_a0 : (childTrapframe c pg parent).ld TF_A0 8 = 0 := by
  unfold childTrapframe
  rw [Bytes.ld_st_self]
  rfl

/-! ## The pages -/

section
variable {s' : Sys} {vm : Vm} {X : Multiset Nat} {i np v : Nat}

theorem MemOk.mem_owned (h : MemOk c s X) (hi : i ∈ s.live)
    (hv : v < pages (s.proc i).sz ∨ (c.shadowStack = true ∧ v = vShadow ∧
      s.vm.shadowPage (s.proc i).pagetable ≠ 0)) :
    PTE2PA (s.vm.leaf (s.proc i).pagetable v) ∈ (s.proc i).owned c s.vm := by
  obtain ⟨hi, hl⟩ := mem_live.mp hi
  obtain ⟨h1, h2, -⟩ := (h.slots i hi).space hl
  rw [owned_live h1 h2]
  refine subset_add_right (subset_add_right (mem_user.mpr ?_))
  rcases hv with hv | ⟨hc, rfl, h0⟩
  · exact .inl ⟨v, hv, rfl⟩
  · exact .inr ⟨hc, h0, rfl⟩

theorem MemOk.ne_of_owned {j p : Nat} (h : MemOk c s X) (hi : i < NPROC) (hj : j < NPROC)
    (hij : j ≠ i) (hp : p ∈ (s.proc i).owned c s.vm) (hq : q ∈ (s.proc j).owned c s.vm) :
    p ≠ q := by
  rintro rfl
  exact (h.own_slot hi).disjoint hp (subset_add_left (mem_otherPages hj hij hq))

theorem MemOk.shadow_flags (h : MemOk c s X) (hc : c.shadowStack = true) (hi : i ∈ s.live) :
    isValid (s.vm.leaf (s.proc i).pagetable vShadow) ∧
      PTE_FLAGS (s.vm.leaf (s.proc i).pagetable vShadow) = PTE_W ||| PTE_V := by
  obtain ⟨hi, hl⟩ := mem_live.mp hi
  obtain ⟨-, -, hsp⟩ := (h.slots i hi).space hl
  refine ⟨(hsp.shadow_valid hc).1, ?_⟩
  have hs := hsp.shadow
  rw [if_pos hc] at hs
  obtain ⟨ss, -, -, hleaf⟩ := hs
  rw [hleaf, PTE_FLAGS_mkPte (by decide)]

def freshShadow (s : Sys) : Page := if s.vm.freelist.length = 4 then s.vm.mem 0 else Bytes.fill 5

theorem ForkOk.live (h : ForkOk c s s' B i np) (hi : i ∈ s.live) :
    i ≠ np ∧ i ∈ s'.live ∧ np ∈ s'.live ∧ s'.proc i = s.proc i := by
  obtain ⟨hlt, hl⟩ := mem_live.mp hi
  obtain ⟨hnp, hun⟩ := freeSlot_some h.slot
  have hne : i ≠ np := by
    rintro rfl
    exact hl hun
  have hpi := h.others i hne
  refine ⟨hne, mem_live.mpr ⟨hlt, by rw [hpi]; exact hl⟩, mem_live.mpr ⟨hnp, ?_⟩, hpi⟩
  rw [h.state]
  exact nofun

theorem ForkOk.parent_mem (h : ForkOk c s s' B i np) (hg : Good c s B) (hi : i ∈ s.live)
    (hq : q ∈ (s.proc i).owned c s.vm) : s'.vm.mem q = s.vm.mem q :=
  h.mem q ((hg.mem.own_slot (mem_live.mp hi).1).left.not_free hq)

theorem ForkOk.parent_leaf (h : ForkOk c s s' B i np) (hg : Good c s B) (hi : i ∈ s.live) (v : Nat) :
    s'.vm.leaf (s.proc i).pagetable v = s.vm.leaf (s.proc i).pagetable v := by
  obtain ⟨hlt, hl⟩ := mem_live.mp hi
  obtain ⟨h1, h2, -⟩ := (hg.mem.slots i hlt).space hl
  refine Vm.leafAt_congr fun q hq => h.parent_mem hg hi ?_
  rw [owned_live h1 h2]
  exact subset_add_right (subset_add_left hq)

theorem ForkOk.low_page (h : ForkOk c s s' B i np) (hg : Good c s B) (hi : i ∈ s.live)
    (hv : v < pages (s.proc i).sz) : SamePage s'.vm (s.proc i).pagetable (s'.proc np).pagetable v := by
  obtain ⟨hne, hi', hnp', hpi⟩ := h.live hi
  have hfl := PTE_FLAGS_lt (s.vm.leaf (s.proc i).pagetable v)
  obtain ⟨pa, hpa, hleaf, hmem⟩ := h.copy v hv
  have hpa' : PTE2PA (s'.vm.leaf (s'.proc np).pagetable v) = pa := by
    rw [hleaf]
    exact PTE2PA_mkPte hfl (hpa.lt.trans (by decide)) hpa.1
  have hchild := h.good.mem.mem_owned hnp' (v := v) (.inl (by rw [h.sz]; exact hv))
  have hparent := h.good.mem.mem_owned hi' (v := v) (.inl (by rw [hpi]; exact hv))
  rw [hpi] at hparent
  have hvalid : isValid (s.vm.leaf (s.proc i).pagetable v) :=
    ((hg.mem.slots i (mem_live.mp hi).1).space (mem_live.mp hi).2).2.2.low v hv
  refine ⟨by rw [hleaf]; exact isValid_mkPte hfl, ?_, ?_, fun o _ => ?_⟩
  · rw [hleaf, PTE_FLAGS_mkPte hfl, flags_or_V hvalid, h.parent_leaf hg hi]
  · exact h.good.mem.ne_of_owned (mem_live.mp hnp').1 (mem_live.mp hi').1 hne hchild (hpi.symm ▸ hparent)
  · rw [hpa', hmem, h.parent_leaf hg hi, h.parent_mem hg hi (hg.mem.mem_owned hi (.inl hv))]

theorem ForkOk.shadow_page (h : ForkOk c s s' B i np) (hc : c.shadowStack = true) (hg : Good c s B)
    (hi : i ∈ s.live) (h0 : s.noZero) :
    SamePage s'.vm (s.proc i).pagetable (s'.proc np).pagetable vShadow ↔
      ∀ o, o < PGSIZE → s.vm.mem (s.vm.shadowPage (s.proc i).pagetable) o = freshShadow s o := by
  obtain ⟨hne, hi', hnp', hpi⟩ := h.live hi
  obtain ⟨hval, hflags⟩ := h.good.mem.shadow_flags hc hnp'
  obtain ⟨-, hflags'⟩ := h.good.mem.shadow_flags hc hi'
  rw [hpi] at hflags'
  have hpar0 : s.vm.shadowPage (s.proc i).pagetable ≠ 0 := fun hh =>
    h0 i hi ((hg.mem.mapsZero_iff hc hi).mpr hh)
  have hpar : s'.vm.shadowPage (s.proc i).pagetable = s.vm.shadowPage (s.proc i).pagetable :=
    congrArg PTE2PA (h.parent_leaf hg hi vShadow)
  have hparmem : s'.vm.mem (s.vm.shadowPage (s.proc i).pagetable) =
      s.vm.mem (s.vm.shadowPage (s.proc i).pagetable) :=
    h.parent_mem hg hi (hg.mem.mem_owned hi (v := vShadow) (.inr ⟨hc, rfl, hpar0⟩))
  -- the child's page, and what it holds
  obtain ⟨hdiff, hnew⟩ : s'.vm.shadowPage (s'.proc np).pagetable ≠ s'.vm.shadowPage (s.proc i).pagetable ∧
      s'.vm.mem (s'.vm.shadowPage (s'.proc np).pagetable) = freshShadow s := by
    unfold freshShadow
    by_cases h4 : s.vm.freelist.length = 4
    · obtain ⟨-, hzero, -⟩ := h.noShadow hc h4
      rw [hzero, hpar, if_pos h4]
      exact ⟨hpar0.symm, h.mem 0 fun hf => not_isPage_zero (hg.mem.own.free_isPage hf)⟩
    · obtain ⟨-, hsh⟩ := h.shadow fun hh => h4 hh.2
      rw [if_neg h4]
      refine ⟨?_, (hsh hc).2⟩
      have hchild := h.good.mem.mem_owned hnp' (v := vShadow) (.inr ⟨hc, rfl, (hsh hc).1.pos⟩)
      have hparent := h.good.mem.mem_owned hi' (v := vShadow) (.inr ⟨hc, rfl, by rw [hpi, hpar]; exact hpar0⟩)
      have := h.good.mem.ne_of_owned (mem_live.mp hnp').1 (mem_live.mp hi').1 hne hchild hparent
      rwa [hpi] at this
  constructor
  · rintro ⟨-, -, -, hbytes⟩ o ho
    have := hbytes o ho
    rw [← hnew, ← hparmem, ← hpar]
    exact this.symm
  · intro hcond
    refine ⟨hval, hflags.trans hflags'.symm, hdiff, fun o ho => ?_⟩
    show s'.vm.mem (s'.vm.shadowPage (s'.proc np).pagetable) o =
      s'.vm.mem (s'.vm.shadowPage (s.proc i).pagetable) o
    rw [hnew, hpar, hparmem]
    exact (hcond o ho).symm

end

/-- **`fork` gives the child the parent's whole user state if, and only if, the parent's
    shadow stack holds what the child's new one does**: the byte 5 everywhere, or, with
    four pages left, what there is at physical page 0. -/
theorem fork_copies_iff {c : Board} {s s' : Sys} {B : Multiset Nat} {i np : Nat} {r : Int}
    (hc : c.shadowStack = true) (h : Good c s B) (hi : i < NPROC) (hl : ¬ (s.proc i).gone)
    (h0 : s.noZero) (hfork : fork c i s = .ok (r, s')) (hr : r ≠ -1) (hslot : s.freeSlot = some np) :
    WholeCopy c s'.vm (s.proc i) (s'.proc np) ↔
      ∀ o, o < PGSIZE → s.vm.mem (s.vm.shadowPage (s.proc i).pagetable) o = freshShadow s o := by
  have hlive : i ∈ s.live := mem_live.mpr ⟨hi, fun hh => hl (.inl hh)⟩
  have hspec := fork_spec (E := fun _ => True) h hi hl fun _ _ _ => trivial
  unfold wp at hspec
  rw [hfork] at hspec
  cases hspec with
  | noSlot slot => exact absurd rfl hr
  | noPages => exact absurd rfl hr
  | @ok np' child =>
    obtain rfl : np' = np := by
      have := child.slot.symm.trans hslot
      cases this
      rfl
    rw [← child.shadow_page hc h hlive h0]
    constructor
    · intro hw
      exact hw.pages vShadow (.inr rfl)
    · intro hshadow
      obtain ⟨pg, htf⟩ := child.trapframe
      obtain ⟨h1, h2, -⟩ := (h.mem.slots i hi).space (mem_live.mp hlive).2
      have htf' : s'.vm.mem (s.proc i).trapframe = s.vm.mem (s.proc i).trapframe := by
        refine child.parent_mem h hlive ?_
        rw [owned_live h1 h2]
        exact subset_add_left (mem_singleton_self _)
      refine ⟨fun o ho ha0 => ?_, ?_, ?_⟩
      · rw [htf, htf', childTrapframe_apply ho ha0]
      · rw [htf, childTrapframe_a0]
      · rintro v (hv | rfl)
        · exact child.low_page h hlive hv
        · exact hshadow

/-! ## A shadow stack in use -/

section
variable {i np : Nat}

theorem fork_succeeds (h : Good c s B) (hi : i < NPROC) (hl : ¬ (s.proc i).gone)
    (hslot : s.freeSlot = some np) (hlen : 5 + 3 * pages (s.proc i).sz ≤ s.vm.freelist.length) :
    ∃ s', fork c i s = .ok (s.nextpid, s') ∧ ForkOk c s s' B i np := by
  obtain ⟨r, s', hrun, hf⟩ := run_of_wp (fork_spec h hi hl fun _ _ h4 => by omega)
  cases hf with
  | noSlot slot => rw [slot] at hslot; cases hslot
  | noPages slot step cleared oom good few => omega
  | ok child =>
    have := child.slot.symm.trans hslot
    cases this
    exact ⟨s', hrun, child⟩

theorem Booted.push (h : Booted c s B) (hc : c.shadowStack = true) (pg : Page) :
    ∃ s', Booted c s' B ∧ s'.vm.freelist = s.vm.freelist ∧
      s'.vm.mem (s'.vm.shadowPage (s'.proc 0).pagetable) = pg := by
  have hnp : 0 < NPROC := by decide
  have hl : (s.proc 0).state ≠ .unused := fun hh => h.not_gone (.inl hh)
  obtain ⟨-, -, hsp⟩ := (h.good.mem.slots 0 hnp).space hl
  have ho := h.good.mem.space_own' hnp hl
  obtain ⟨vm, hvm⟩ : ∃ vm, vm = s.vm.put (s.vm.shadowPage (s.proc 0).pagetable) pg := ⟨_, rfl⟩
  have hw : Wrote s.vm vm (s.vm.user c (s.proc 0).pagetable (s.proc 0).sz) := by
    rw [hvm]
    exact wrote_put (mem_user.mpr (.inr ⟨hc, h.shadow hc, rfl⟩))
  have hon : OnSlot s { s with vm := vm } 0 vm (s.proc 0) := ⟨fun _ _ => rfl, rfl, rfl, rfl, rfl⟩
  have hb := hw.became hsp ho
  have hstep := hb.slotStep (h.good.mem.slots 0 hnp) hl hon hl rfl rfl
  refine ⟨{ s with vm := vm }, ⟨Held.step h.good hnp hstep rfl fun hg => .inl hg, hw.oom.trans h.oom,
    h.state, h.sz, h.others, fun _ => ?_⟩, hw.free, ?_⟩
  · show vm.shadowPage (s.proc 0).pagetable ≠ 0
    rw [hb.shadowPage]
    exact h.shadow hc
  · show vm.mem (vm.shadowPage (s.proc 0).pagetable) = pg
    rw [hb.shadowPage, hvm, Vm.put_mem_self]

theorem Booted.freeSlot_one (h : Booted c s B) : s.freeSlot = some 1 := by
  have h0 : ((s.proc 0).state == .unused) = false := by rw [h.state]; decide
  have h1 : ((s.proc 1).state == .unused) = true := by rw [h.others 1 (by decide)]; decide
  unfold Sys.freeSlot
  rw [show List.range NPROC = 0 :: 1 :: (List.range 62).map (· + 2) from rfl, List.find?_cons,
    List.find?_cons, h0, h1]

theorem Booted.fork (h : Booted c s B) (hc : c.shadowStack = true) (hlen : 8 ≤ s.vm.freelist.length)
    (hpg : s.vm.mem (s.vm.shadowPage (s.proc 0).pagetable) = pg) :
    ∃ s', Mem.fork c 0 s = .ok (s.nextpid, s') ∧
      s'.vm.mem (s'.vm.shadowPage (s.proc 0).pagetable) = pg ∧
      s'.vm.mem (s'.vm.shadowPage (s'.proc 1).pagetable) = Bytes.fill 5 := by
  have hlive : 0 ∈ s.live := mem_live.mpr ⟨by decide, fun hh => h.not_gone (.inl hh)⟩
  obtain ⟨s', hrun, child⟩ := fork_succeeds h.good (by decide) h.not_gone h.freeSlot_one
    (by rw [h.sz]; exact hlen)
  have hpar : s'.vm.shadowPage (s.proc 0).pagetable = s.vm.shadowPage (s.proc 0).pagetable :=
    congrArg PTE2PA (child.parent_leaf h.good hlive vShadow)
  refine ⟨s', hrun, ?_, ((child.shadow fun hh => by omega).2 hc).2⟩
  have hown := h.good.mem.mem_owned hlive (v := vShadow) (.inr ⟨hc, rfl, h.shadow hc⟩)
  rw [hpar]
  exact (child.parent_mem h.good hlive hown).trans hpg

end

/-- The first process has used its shadow stack, and forks: the child's holds other bytes. -/
theorem fork_loses_shadow_stack : ∃ s s' B, Booted (Board.virt true true) s B ∧ s.noZero ∧
    fork (Board.virt true true) 0 s = .ok (s.nextpid, s') ∧
    s'.vm.mem (s'.vm.shadowPage (s.proc 0).pagetable) 4088 = 0 ∧
    s'.vm.mem (s'.vm.shadowPage (s'.proc 1).pagetable) 4088 = 5 ∧
    ¬ WholeCopy (Board.virt true true) s'.vm (s.proc 0) (s'.proc 1) := by
  obtain ⟨s₀, B, hb₀, hlen⟩ := exists_booted (k := 100) (by decide)
  obtain ⟨s, hb, hfree, hpg⟩ := hb₀.push rfl (Bytes.fill 0)
  obtain ⟨s', hrun, hpar, hchild⟩ := hb.fork rfl (by rw [hfree, hlen]; decide) hpg
  refine ⟨s, s', B, hb, hb.noZero rfl, hrun, by rw [hpar]; rfl, by rw [hchild]; rfl, fun hw => ?_⟩
  have hbyte := (hw.pages vShadow (.inr rfl)).bytes 4088 (by decide)
  have hbyte : s'.vm.mem (s'.vm.shadowPage (s'.proc 1).pagetable) 4088 =
      s'.vm.mem (s'.vm.shadowPage (s.proc 0).pagetable) 4088 := hbyte
  rw [hpar, hchild] at hbyte
  exact absurd hbyte (by decide)

/-- A shadow stack that was never used is the same in the child. -/
theorem fork_copies_iff_unused : ∃ s s' B, Booted (Board.virt true true) s B ∧
    fork (Board.virt true true) 0 s = .ok (s.nextpid, s') ∧
    WholeCopy (Board.virt true true) s'.vm (s.proc 0) (s'.proc 1) := by
  obtain ⟨s₀, B, hb₀, hlen⟩ := exists_booted (k := 100) (by decide)
  obtain ⟨s, hb, hfree, hpg⟩ := hb₀.push rfl (Bytes.fill 5)
  have hlen' : s.vm.freelist.length = 100 := by rw [hfree, hlen]
  obtain ⟨s', hrun, -, -⟩ := hb.fork rfl (by omega) hpg
  have hr : (s.nextpid : Int) ≠ -1 := by omega
  refine ⟨s, s', B, hb, hrun, (fork_copies_iff rfl hb.good (by decide) hb.not_gone (hb.noZero rfl) hrun hr
    hb.freeSlot_one).mpr fun o _ => ?_⟩
  unfold freshShadow
  rw [hpg, if_neg (by omega)]

end ZeptOS.Mem
