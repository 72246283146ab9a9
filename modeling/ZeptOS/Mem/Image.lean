import ZeptOS.Mem.Args

/-!
# The image of a program

What `exec` makes of the program headers, byte by byte. A segment paints its file part over
what the segments before it have left, on pages that came zeroed from the allocator, and
the flags of a page are those of the segment that was the first to reach it. None of this
needs the segments to be in order or apart; with segments in order it says that every
segment finds its own bytes.
-/

namespace ZeptOS.Mem

open Lib Lib.Prog

variable {L : List Segment} {pt : Nat} {vm : Vm}

/-! ## The new program -/

def Image.segments (img : Image) : List Segment := loads img img.phnum img.phoff

section
variable {c : Board} {s s' : Sys} {i : Nat} {X : Multiset Nat} {path : List UInt8} {img : Image}
  {argv : List (List UInt8)}

theorem Imaged.drawn {prog : Loaded} {vm₁ vm₂ : Vm} {A : Multiset Nat}
    (h : Imaged c s s' i img argv pt prog vm₁ vm₂) (ho : Own c s.vm A)
    (hargc : argv.length < MAXARG) (hlen : ∀ a ∈ argv, a.length < PGSIZE) :
    prog.sz = (pages (extent img.segments) + 2) * PGSIZE ∧
      Drawn c img img.segments (extent img.segments) s'.vm pt ∧ prog.sz ≤ MAXVA := by
  obtain ⟨-, -, -, pa, s₁, hstack, ht, hb, hvm⟩ := h.args ho hargc hlen
  have hsp := h.empty.became hb
  have hown := hsp.own_space ho
  have hw : wp (loadStack c img img.phoff img.phnum pt) (fun _ => True) _ vm₁ :=
    loadStack_draws h.empty.space (h.empty.own_space ho)
  obtain ⟨-, -, -, hsz, hd⟩ := post_of_run hw hstack
  have hsz : prog.sz = (pages (extent img.segments) + 2) * PGSIZE := hsz
  have hpages : pages prog.sz = pages (extent img.segments) + 2 := by rw [hsz, pages_mul]
  have htop : prog.sz / PGSIZE - 1 = pages (extent img.segments) + 1 := by
    rw [hsz, Nat.mul_div_cancel _ (by decide)]
    omega
  have hw2 : Wrote s₁ vm₂ (s₁.user c pt prog.sz) := by
    rw [hvm]
    exact wrote_put ht.mem_user
  have hleaf : ∀ u, s'.vm.leaf pt u = s₁.leaf pt u := fun u => (h.leaf u).trans (hw2.leaf hown u)
  refine ⟨hsz, hd.congr (fun u _ => hleaf u) fun u hu => ?_, ht.le⟩
  · have hu2 : u < pages prog.sz := by
      rw [hpages]
      exact hu.trans_le (Nat.le_add_right _ _)
    -- the arguments are on another page
    have hne : PTE2PA (s₁.leaf pt u) ≠ pa := by
      rw [← ht.page]
      intro heq
      have hueq := hown.page_inj hu2 (by omega) heq
      have hu : u < pages (extent img.segments) := hu
      omega
    have hmem : PTE2PA (s₁.leaf pt u) ∈ vm₂.space c pt prog.sz := by
      refine Multiset.mem_add.mpr (.inr ?_)
      rw [hw2.user hsp.space hown]
      exact mem_user_of_lt hu2
    rw [h.kept _ hmem, hvm, Vm.put_mem_of_ne hne]

/-- **The image of a file**: its segments hold their parts of the file and zeros after them, and
    there are zeros between them. -/
structure Faithful (vm : Vm) (pt sz : Nat) (img : Image) : Prop where
  file : ∀ g ∈ img.segments, ∀ k, k < g.filesz → g.off + k < img.size ∧
    vm.readable pt (g.vaddr + k) ∧ vm.byte pt (g.vaddr + k) = img.data (g.off + k)
  zero : ∀ g ∈ img.segments, ∀ k, g.filesz ≤ k → k < g.memsz →
    vm.readable pt (g.vaddr + k) ∧ vm.byte pt (g.vaddr + k) = 0
  gap : ∀ a, a < sz - 2 * PGSIZE → (∀ g ∈ img.segments, ¬ (g.vaddr ≤ a ∧ a < g.stop)) →
    vm.readable pt a ∧ vm.byte pt a = 0

theorem pairwise_of_isChain (h : L.IsChain fun g g' => g.stop ≤ g'.vaddr) :
    L.Pairwise fun g g' => g.stop ≤ g'.vaddr := by
  have htrans : ∀ {f g k : Segment}, f.stop ≤ g.vaddr → g.stop ≤ k.vaddr → f.stop ≤ k.vaddr := by
    intro f g k h1 h2
    exact (h1.trans (Nat.le_add_right _ _)).trans h2
  have : Trans (fun g g' : Segment => g.stop ≤ g'.vaddr) (fun g g' : Segment => g.stop ≤ g'.vaddr)
    (fun g g' : Segment => g.stop ≤ g'.vaddr) := ⟨htrans⟩
  exact h.pairwise

theorem Drawn.readable {sz r a : Nat} (h : Drawn c img L sz vm r) (ha : vpn a < pages sz)
    (hmax : a < MAXVA) : vm.readable r a := by
  obtain ⟨g, hg⟩ := exists_firstAt (h.size ▸ ha)
  obtain ⟨pa, hpa, hl⟩ := h.leaf _ g hg
  unfold Vm.readable
  rw [hl, PTE2PA_mkPte (segment_perm_lt g) (by have := hpa.lt; omega) hpa.1]
  refine ⟨hmax, isValid_mkPte (segment_perm_lt g), ?_, hpa.pos⟩
  exact segment_user pa g

theorem Drawn.faithful_iff {sz : Nat} (hd : Drawn c img img.segments (extent img.segments) vm pt)
    (hsz : sz = (pages (extent img.segments) + 2) * PGSIZE) (hmax : sz ≤ MAXVA)
    (hord : img.segments.Pairwise fun g g' => g.stop ≤ g'.vaddr)
    (hfilesz : ∀ g ∈ img.segments, g.filesz < 2 ^ 32) :
    Faithful vm pt sz img ↔ ∀ g ∈ img.segments, 0 < g.filesz → g.off < 2 ^ 32 := by
  have hcap : MAXFILE * BSIZE < 2 ^ 32 := by decide
  have hsize := img.size_le
  constructor
  · intro hf g hg hpos
    have := (hf.file g hg 0 hpos).1
    omega
  · intro hoff
    have hread : ∀ a, vpn a < pages (extent img.segments) →
        vm.readable pt a ∧ vm.byte pt a = contents img img.segments a := by
      intro a ha
      have hlt : a < pages (extent img.segments) * PGSIZE :=
        (Nat.div_lt_iff_lt_mul (by decide)).mp ha
      rw [Nat.add_mul] at hsz
      exact ⟨hd.readable ha (by omega), hd.bytes a ha⟩
    have hin : ∀ g ∈ img.segments, ∀ k, k < g.memsz →
        vm.readable pt (g.vaddr + k) ∧ vm.byte pt (g.vaddr + k) =
          if k < g.filesz then img.data (g.off % 2 ^ 32 + k) else 0 := by
      intro g hg k hk
      have hstop : g.vaddr + k < g.stop := Nat.add_lt_add_left hk _
      have hext := stop_le_extent hg
      obtain ⟨h1, h2⟩ := hread (g.vaddr + k) (vpn_lt_pages (by omega))
      refine ⟨h1, h2.trans ?_⟩
      rw [contents_of_mem hord hd.fit hg (Nat.le_add_right _ _) hstop,
        Nat.mod_eq_of_lt (hfilesz g hg), Nat.add_sub_cancel_left]
      exact if_congr (by omega) rfl rfl
    refine ⟨fun g hg k hk => ?_, fun g hg k h1 h2 => ?_, fun a ha hno => ?_⟩
    · have hfit := hd.fit g hg
      have hfile := hd.file g hg
      rw [Nat.mod_eq_of_lt (hfilesz g hg), Nat.mod_eq_of_lt (hoff g hg (by omega))] at hfile
      obtain ⟨h1, h2⟩ := hin g hg k (by omega)
      rw [if_pos hk, Nat.mod_eq_of_lt (hoff g hg (by omega))] at h2
      exact ⟨by have := hfile (by omega); omega, h1, h2⟩
    · obtain ⟨h3, h4⟩ := hin g hg k h2
      rw [if_neg (by omega)] at h4
      exact ⟨h3, h4⟩
    · have hlt : vpn a < pages (extent img.segments) := by
        refine (Nat.div_lt_iff_lt_mul (by decide)).mpr ?_
        rw [hsz, Nat.add_mul, Nat.add_sub_cancel] at ha
        exact ha
      obtain ⟨h1, h2⟩ := hread a hlt
      exact ⟨h1, h2.trans (contents_of_not_mem hd.fit hno)⟩

theorem exec_drawn {r : Int} (h : MemOk c s X) (hi : i < NPROC) (hl : (s.proc i).state ≠ .unused)
    (hargc : argv.length < MAXARG) (hlen : ∀ a ∈ argv, a.length < PGSIZE)
    (hrun : exec c i path (some img) argv s = .ok (r, s')) (hr : r ≠ -1) :
    (s'.proc i).sz = (pages (extent img.segments) + 2) * PGSIZE ∧
      Drawn c img img.segments (extent img.segments) s'.vm (s'.proc i).pagetable ∧
      (s'.proc i).sz ≤ MAXVA := by
  have ho := (h.own_slot hi).left
  cases execed_of_run h hi hl hrun with
  | refused => exact absurd rfl hr
  | failed => exact absurd rfl hr
  | ok prog pt elf step proc oom shadow good old image =>
    obtain ⟨img', vm₁, vm₂, himg, him⟩ := image
    cases himg
    rw [proc]
    exact him.drawn ho hargc hlen

/-- **The bytes of a loaded program** are those of the file, if no offset into it is cut. -/
theorem exec_faithful_iff {r : Int} (h : MemOk c s X) (hi : i < NPROC)
    (hl : (s.proc i).state ≠ .unused) (hargc : argv.length < MAXARG)
    (hlen : ∀ a ∈ argv, a.length < PGSIZE)
    (hord : img.segments.IsChain fun g g' => g.stop ≤ g'.vaddr)
    (hfilesz : ∀ g ∈ img.segments, g.filesz < 2 ^ 32)
    (hrun : exec c i path (some img) argv s = .ok (r, s')) (hr : r ≠ -1) :
    Faithful s'.vm (s'.proc i).pagetable (s'.proc i).sz img ↔
      ∀ g ∈ img.segments, 0 < g.filesz → g.off < 2 ^ 32 := by
  obtain ⟨hsz, hd, hmax⟩ := exec_drawn h hi hl hargc hlen hrun hr
  exact hd.faithful_iff hsz hmax (pairwise_of_isChain hord) hfilesz

/-- **The permissions of an image**: every page with a byte of a segment is the user's to read,
    and to write and execute as the segment says. -/
def Granted (vm : Vm) (pt : Nat) (img : Image) : Prop :=
  ∀ g ∈ img.segments, ∀ k, k < g.memsz →
    isValid (vm.leaf pt (vpn (g.vaddr + k))) ∧
    vm.leaf pt (vpn (g.vaddr + k)) &&& PTE_U ≠ 0 ∧ vm.leaf pt (vpn (g.vaddr + k)) &&& PTE_R ≠ 0 ∧
    (g.flags &&& 2 ≠ 0 → vm.leaf pt (vpn (g.vaddr + k)) &&& PTE_W ≠ 0) ∧
    (g.flags &&& 1 ≠ 0 → vm.leaf pt (vpn (g.vaddr + k)) &&& PTE_X ≠ 0)

theorem leaf_flags {w pa : Nat} {g : Segment}
    (h : w = mkPte pa (PTE_R ||| PTE_U ||| flags2perm g.flags)) :
    isValid w ∧ w &&& PTE_U ≠ 0 ∧ w &&& PTE_R ≠ 0 ∧ (w &&& PTE_W ≠ 0 ↔ g.flags &&& 2 ≠ 0) ∧
      (w &&& PTE_X ≠ 0 ↔ g.flags &&& 1 ≠ 0) := by
  have hp := segment_perm_lt g
  rw [h, mkPte_and hp (by decide), mkPte_and hp (by decide), mkPte_and hp (by decide),
    mkPte_and hp (by decide)]
  refine ⟨isValid_mkPte hp, ?_⟩
  unfold flags2perm
  by_cases h1 : g.flags &&& 1 ≠ 0
  · by_cases h2 : g.flags &&& 2 ≠ 0
    · rw [if_pos h1, if_pos h2]
      exact ⟨by decide, by decide, iff_of_true (by decide) h2, iff_of_true (by decide) h1⟩
    · rw [if_pos h1, if_neg h2]
      exact ⟨by decide, by decide, iff_of_false (by decide) h2, iff_of_true (by decide) h1⟩
  · by_cases h2 : g.flags &&& 2 ≠ 0
    · rw [if_neg h1, if_pos h2]
      exact ⟨by decide, by decide, iff_of_true (by decide) h2, iff_of_false (by decide) h1⟩
    · rw [if_neg h1, if_neg h2]
      exact ⟨by decide, by decide, iff_of_false (by decide) h2, iff_of_false (by decide) h1⟩

/-- **The permissions of a loaded program** are those of the segments that were the first to
    need its pages. -/
theorem exec_granted_iff {r : Int} (h : MemOk c s X) (hi : i < NPROC)
    (hl : (s.proc i).state ≠ .unused) (hargc : argv.length < MAXARG)
    (hlen : ∀ a ∈ argv, a.length < PGSIZE)
    (hrun : exec c i path (some img) argv s = .ok (r, s')) (hr : r ≠ -1) :
    Granted s'.vm (s'.proc i).pagetable img ↔ ∀ g ∈ img.segments, ∀ k, k < g.memsz →
        ∀ f, firstAt img.segments (vpn (g.vaddr + k)) = some f →
          (g.flags &&& 2 ≠ 0 → f.flags &&& 2 ≠ 0) ∧ (g.flags &&& 1 ≠ 0 → f.flags &&& 1 ≠ 0) := by
  obtain ⟨-, hd, -⟩ := exec_drawn h hi hl hargc hlen hrun hr
  refine forall₂_congr fun g hg => forall₂_congr fun k hk => ?_
  have hstop : g.vaddr + k < extent img.segments :=
    Nat.lt_of_lt_of_le (Nat.add_lt_add_left hk _) (stop_le_extent hg)
  obtain ⟨f, hf⟩ := exists_firstAt (vpn_lt_pages hstop)
  obtain ⟨pa, -, hleaf⟩ := hd.leaf _ f hf
  obtain ⟨hv, hU, hR, hW, hX⟩ := leaf_flags hleaf
  constructor
  · rintro ⟨-, -, -, h1, h2⟩ f' hf'
    obtain rfl : f = f' := Option.some.inj (hf.symm.trans hf')
    exact ⟨fun hh => hW.mp (h1 hh), fun hh => hX.mp (h2 hh)⟩
  · intro hcond
    obtain ⟨h1, h2⟩ := hcond f hf
    exact ⟨hv, hU, hR, fun hh => hW.mpr (h1 hh), fun hh => hX.mpr (h2 hh)⟩

/-- **A file that can be run**: its headers are in order, it is long enough for its segments, and there
    are pages for them, the stack and the tables. -/
structure Runnable (c : Board) (s : Sys) (i : Nat) (img : Image) : Prop where
  elf : isElf (some img)
  headers : headersOk img img.phnum img.phoff = true
  file : ∀ g ∈ img.segments, g.stop ≠ 0 ∧
    (0 < g.filesz % 2 ^ 32 → g.off % 2 ^ 32 + g.filesz % 2 ^ 32 ≤ img.size)
  free : 3 * (pages (extent img.segments) + 2) + 4 ≤ s.vm.freelist.length
  shadow : c.shadowStack = true → s.vm.shadowPage (s.proc i).pagetable ≠ 0

/-- Such a file is run, unless its arguments do not fit the stack page. -/
theorem Runnable.exec_eq (hf : Runnable c s i img) (h : MemOk c s X) (hi : i < NPROC)
    (hl : (s.proc i).state ≠ .unused) (hargc : argv.length < MAXARG)
    (hlen : ∀ a ∈ argv, a.length < PGSIZE) :
    ∃ s', exec c i path (some img) argv s = .ok (if Fits argv then (argv.length : Int) else -1, s') := by
  have ho := (h.own_slot hi).left
  have hfree := hf.free
  have hspec : wp (exec c i path (some img) argv) (fun _ => False) _ s :=
    exec_spec h hi hl (fun _ _ h3 => by omega) hf.shadow
  obtain ⟨r, s', hrun, hend⟩ := run_of_wp hspec
  cases hend with
  | refused elf => exact absurd hf.elf elf
  | failed elf step proc mem good cause =>
    refine ⟨s', ?_⟩
    rw [hrun, if_neg]
    intro hfit
    obtain ⟨img', himg, pt, vm₁, htable, hbad⟩ := cause
    cases himg
    have hnewtable : wp (procPagetable c (s.proc i).trapframe) (fun _ => True) _ s.vm :=
      procPagetable_spec ho.free (h.isPage_trapframe hi hl)
    have hnew := post_of_run hnewtable htable
    rcases hnew with ⟨hshort, -⟩ | ⟨-, hpt, hnew⟩
    · omega
    have hb : Beside c s.vm vm₁ pt (s.proc i).trapframe 0 := ⟨hnew.space, hnew.bal, hnew.frame⟩
    have hstack : wp (loadStack c img img.phoff img.phnum pt) (fun _ => False) _ vm₁ :=
      loadStack_draws hb.space (hb.own_space ho)
    obtain ⟨res, vm₂, hload, hres⟩ := run_of_wp hstack
    have hleft := hnew.left
    rcases loadProgram_runs img img.phoff img.phnum hb.space (hb.own_space ho) with hno | hyes
    · obtain ⟨sz, vm, hstop, -⟩ := hno
      obtain ⟨rfl, rfl⟩ := Prod.mk.inj (Except.ok.inj (hload.symm.trans hstop))
      have hext : pages (extent (loads img img.phnum img.phoff)) = pages (extent img.segments) := rfl
      rcases hres.2 with hres | (hres | ⟨g, hg, h0 | hshort⟩) | hres
      · cases hf.headers.symm.trans hres
      · omega
      · exact absurd h0 (hf.file g hg).1
      · exact absurd ((hf.file g hg).2 hshort.1) hshort.2
      · omega
    · obtain ⟨sz1, pa, s₁, -, -, -, hargs⟩ := hyes
      obtain ⟨res', vm, hprog, hres'⟩ := hargs argv hargc hlen
      rw [if_pos hfit] at hres'
      rcases hbad with hbad | ⟨sz, vm', hbad⟩
      · exact absurd hbad hpt
      · rw [hres'.1] at hprog
        cases hprog.symm.trans hbad
  | ok prog pt elf step proc oom shadow good old image =>
    obtain ⟨img', vm₁, vm₂, himg, him⟩ := image
    obtain ⟨hfit, hargs, -⟩ := him.args ho hargc hlen
    exact ⟨s', by rw [hrun, hargs, if_pos hfit]⟩

/-- **The argument layout of `exec`.** A program that was started finds its arguments on its
    stack, and `a1` and `sp` point to them. A file that can be run is run exactly when the
    arguments fit the page. -/
theorem exec_argument_layout (path : List UInt8) (file : Option Image) (argv : List (List UInt8))
    (h : MemOk c s X) (hi : i < NPROC) (hl : (s.proc i).state ≠ .unused) (hargc : argv.length < MAXARG)
    (hlen : ∀ a ∈ argv, a.length < PGSIZE) :
    (∀ r s', exec c i path file argv s = .ok (r, s') → r ≠ -1 → r = argv.length ∧
      s'.tfWord i TF_A1 = s'.tfWord i TF_SP ∧
      ∃ ptr, ArgsAt s'.vm (s'.proc i).pagetable (s'.proc i).sz (s'.tfWord i TF_SP) argv ptr) ∧
    ∀ img, Runnable c s i img → ∃ s', exec c i path (some img) argv s =
      .ok (if Fits argv then (argv.length : Int) else -1, s') :=
  ⟨fun _ _ hrun hr => argsAt_of_run h hi hl hargc hlen hrun hr,
    fun _ hf => hf.exec_eq h hi hl hargc hlen⟩

end

/-! ## Files to run -/

def digits (w v : Nat) : List UInt8 := (List.range w).map fun k => UInt8.ofNat (v / 256 ^ k)

def Segment.header (g : Segment) : List UInt8 :=
  digits 4 ELF_PROG_LOAD ++ digits 4 g.flags ++ digits 8 g.off ++ digits 8 g.vaddr ++ digits 8 0 ++
    digits 8 g.filesz ++ digits 8 g.memsz ++ digits 8 0

/-- An executable with some segments: its header, theirs right after it, and `n` zeros. -/
def elfOf (L : List Segment) (n : Nat) (h : ELFHDR_SIZE + PROGHDR_SIZE * L.length + n ≤ MAXFILE * BSIZE) :
    Image where
  size := ELFHDR_SIZE + PROGHDR_SIZE * L.length + n
  data k := (digits 4 ELF_MAGIC ++ List.replicate 28 0 ++ digits 8 ELFHDR_SIZE ++
    List.replicate 16 0 ++ digits 2 L.length ++ List.replicate 6 0 ++
    L.flatMap Segment.header).getD k 0
  size_le := h

theorem exists_runnable (img : Image) (helf : isElf (some img))
    (hhead : headersOk img img.phnum img.phoff = true) (hfile : ∀ g ∈ img.segments, g.stop ≠ 0 ∧
      (0 < g.filesz % 2 ^ 32 → g.off % 2 ^ 32 + g.filesz % 2 ^ 32 ≤ img.size))
    (hsmall : pages (extent img.segments) ≤ 2) :
    ∃ s B, Booted (Board.virt true true) s B ∧ (s.proc 0).state ≠ .unused ∧
      Runnable (Board.virt true true) s 0 img := by
  obtain ⟨s, B, hb, hfree⟩ := exists_booted (k := 20) (by decide)
  exact ⟨s, B, hb, fun hh => hb.not_gone (.inl hh), helf, hhead, hfile, by omega, hb.shadow⟩

theorem exists_exec (img : Image) (helf : isElf (some img))
    (hhead : headersOk img img.phnum img.phoff = true) (hfile : ∀ g ∈ img.segments, g.stop ≠ 0 ∧
      (0 < g.filesz % 2 ^ 32 → g.off % 2 ^ 32 + g.filesz % 2 ^ 32 ≤ img.size))
    (hsmall : pages (extent img.segments) ≤ 2) :
    ∃ s B s', Booted (Board.virt true true) s B ∧ (s.proc 0).state ≠ .unused ∧
      exec (Board.virt true true) 0 [] (some img) [] s = .ok (0, s') := by
  obtain ⟨s, B, hb, hlive, hf⟩ := exists_runnable img helf hhead hfile hsmall
  have hrun : ∃ s', exec (Board.virt true true) 0 [] (some img) [] s = .ok (if Fits [] then 0 else -1, s') :=
    hf.exec_eq hb.good.mem (by decide) hlive (by decide) fun _ h => by cases h
  obtain ⟨s', hrun⟩ := hrun
  exact ⟨s, B, s', hb, hlive, hrun⟩

/-- One segment from the middle of a page on, whose file part stands at `off`. -/
def oneSegment (off : Nat) : Image := elfOf [⟨5, off, 100, 8, 5000⟩] 8 (by rw [List.length_singleton]; decide)

/-- Two arguments are found where they belong, and two of nearly a page each do not fit. -/
theorem exec_argument_layout_two : ∃ s B s' s'', Booted (Board.virt true true) s B ∧
    exec (Board.virt true true) 0 [] (some (oneSegment 120)) [[104, 105], []] s = .ok (2, s') ∧
    s'.tfWord 0 TF_A1 = s'.tfWord 0 TF_SP ∧
    (∃ ptr, ArgsAt s'.vm (s'.proc 0).pagetable (s'.proc 0).sz (s'.tfWord 0 TF_SP)
      [[104, 105], []] ptr) ∧ exec (Board.virt true true) 0 [] (some (oneSegment 120))
      [List.replicate 4000 97, List.replicate 4000 97] s = .ok (-1, s'') := by
  obtain ⟨s, B, hb, hlive, hf⟩ := exists_runnable (oneSegment 120)
    ⟨_, rfl, by decide +kernel, by decide +kernel⟩ (by decide +kernel) (by decide +kernel)
    (by decide +kernel)
  have htwo := exec_argument_layout [] (some (oneSegment 120)) [[104, 105], []] hb.good.mem (by decide)
    hlive (by decide) (by decide)
  have hlong := exec_argument_layout [] none [List.replicate 4000 97, List.replicate 4000 97]
    hb.good.mem (by decide) hlive (by decide) (by decide +kernel)
  obtain ⟨s', hrun⟩ := htwo.2 _ hf
  obtain ⟨s'', hrun'⟩ := hlong.2 _ hf
  rw [if_pos (by decide)] at hrun
  rw [if_neg (by decide +kernel)] at hrun'
  obtain ⟨-, ha1, hargs⟩ := htwo.1 _ _ hrun (by decide)
  exact ⟨s, B, s', s'', hb, hrun, ha1, hargs, hrun'⟩

theorem exec_faithful_iff_oneSegment : ∃ s B s', Booted (Board.virt true true) s B ∧
    exec (Board.virt true true) 0 [] (some (oneSegment 120)) [] s = .ok (0, s') ∧
    (Faithful s'.vm (s'.proc 0).pagetable (s'.proc 0).sz (oneSegment 120) ↔
      ∀ g ∈ (oneSegment 120).segments, 0 < g.filesz → g.off < 2 ^ 32) := by
  obtain ⟨s, B, s', hb, hlive, hrun⟩ := exists_exec (oneSegment 120)
    ⟨_, rfl, by decide +kernel, by decide +kernel⟩ (by decide +kernel) (by decide +kernel)
    (by decide +kernel)
  exact ⟨s, B, s', hb, hrun, exec_faithful_iff hb.good.mem (by decide) hlive (by decide)
    (fun _ h => by cases h) (by decide +kernel) (by decide +kernel) hrun (by decide)⟩

/-- A segment that stands four gigabytes into a file of 128 bytes is loaded all the same. -/
theorem exec_cuts_offset : ∃ s B s', Booted (Board.virt true true) s B ∧
    (oneSegment (2 ^ 32 + 120)).segments = [⟨5, 2 ^ 32 + 120, 100, 8, 5000⟩] ∧
    exec (Board.virt true true) 0 [] (some (oneSegment (2 ^ 32 + 120))) [] s = .ok (0, s') ∧
    ¬ Faithful s'.vm (s'.proc 0).pagetable (s'.proc 0).sz (oneSegment (2 ^ 32 + 120)) := by
  have hseg : (oneSegment (2 ^ 32 + 120)).segments = [⟨5, 2 ^ 32 + 120, 100, 8, 5000⟩] := by
    decide +kernel
  obtain ⟨s, B, s', hb, hlive, hrun⟩ := exists_exec (oneSegment (2 ^ 32 + 120))
    ⟨_, rfl, by decide +kernel, by decide +kernel⟩ (by decide +kernel) (by decide +kernel)
    (by decide +kernel)
  refine ⟨s, B, s', hb, hseg, hrun, fun hf => ?_⟩
  have hin := (hf.file ⟨5, 2 ^ 32 + 120, 100, 8, 5000⟩ (by rw [hseg]; exact List.mem_cons_self) 0
    (by decide)).1
  exact absurd hin (by decide)

/-- Code that may be written, and data from the middle of its page to the end of the next one. -/
def writableCode : Image := elfOf [⟨7, 0, 0, 64, 256⟩, ⟨6, 0, 256, 64, 7936⟩] 0 (by decide)

theorem exec_granted_iff_twoSegments : ∃ s B s', Booted (Board.virt true true) s B ∧
    writableCode.segments = [⟨7, 0, 0, 64, 256⟩, ⟨6, 0, 256, 64, 7936⟩] ∧
    exec (Board.virt true true) 0 [] (some writableCode) [] s = .ok (0, s') ∧
    (Granted s'.vm (s'.proc 0).pagetable writableCode ↔
      ∀ g ∈ writableCode.segments, ∀ k, k < g.memsz →
        ∀ f, firstAt writableCode.segments (vpn (g.vaddr + k)) = some f →
          (g.flags &&& 2 ≠ 0 → f.flags &&& 2 ≠ 0) ∧ (g.flags &&& 1 ≠ 0 → f.flags &&& 1 ≠ 0)) := by
  obtain ⟨s, B, s', hb, hlive, hrun⟩ := exists_exec writableCode
    ⟨_, rfl, by decide +kernel, by decide +kernel⟩ (by decide +kernel) (by decide +kernel)
    (by decide +kernel)
  exact ⟨s, B, s', hb, by decide +kernel, hrun, exec_granted_iff hb.good.mem (by decide) hlive (by decide)
    (fun _ h => by cases h) hrun (by decide)⟩

def sharedPage : Image := elfOf [⟨5, 0, 0, 64, 256⟩, ⟨6, 0, 256, 64, 256⟩] 0 (by decide)

/-- Data on a page that was made for the code before it cannot be written. -/
theorem exec_withholds_write : ∃ s B s', Booted (Board.virt true true) s B ∧
    sharedPage.segments = [⟨5, 0, 0, 64, 256⟩, ⟨6, 0, 256, 64, 256⟩] ∧
    exec (Board.virt true true) 0 [] (some sharedPage) [] s = .ok (0, s') ∧
    ¬ Granted s'.vm (s'.proc 0).pagetable sharedPage := by
  have hseg : sharedPage.segments = [⟨5, 0, 0, 64, 256⟩, ⟨6, 0, 256, 64, 256⟩] := by decide +kernel
  obtain ⟨s, B, s', hb, hlive, hrun⟩ := exists_exec sharedPage
    ⟨_, rfl, by decide +kernel, by decide +kernel⟩ (by decide +kernel) (by decide +kernel)
    (by decide +kernel)
  obtain ⟨-, hd, -⟩ := exec_drawn hb.good.mem (by decide) hlive (by decide) (fun _ h => by cases h)
    hrun (by decide)
  refine ⟨s, B, s', hb, hseg, hrun, fun hgr => ?_⟩
  obtain ⟨pa, -, hleaf⟩ := hd.leaf 0 ⟨5, 0, 0, 64, 256⟩ (by decide +kernel)
  have hdata := hgr ⟨6, 0, 256, 64, 256⟩
    (by rw [hseg]; exact List.mem_cons_of_mem _ List.mem_cons_self) 0 (by decide)
  exact absurd ((leaf_flags hleaf).2.2.2.1.mp (hdata.2.2.2.1 (by decide))) (by decide)

end ZeptOS.Mem
