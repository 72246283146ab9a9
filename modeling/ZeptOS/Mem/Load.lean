import ZeptOS.Mem.Loadseg

/-!
# Loading a program

The half of `exec` that fills the new table: the loop over the program headers, the stack and the
arguments. A segment paints its file part over what the segments before it have left, on pages that
came zeroed from the allocator, and the flags of a page are those of the segment that was the first to
reach it. None of this needs the segments to be in order or apart.
-/

namespace ZeptOS.Mem

open Lib Lib.Prog

variable {a n r sz tf off res perm newsz stackbase : Nat} {c : Board} {s s' : Vm} {E : Panic → Prop}
  {g : Segment} {img : Image} {L all : List Segment}

/-! ## The program headers -/

theorem mkPte_and {pa m : Nat} (hperm : perm < 1024) (hm : 0x3FF &&& m = m) :
    mkPte pa perm &&& m = (perm ||| PTE_V) &&& m := by
  have hf : PTE_FLAGS (mkPte pa perm) &&& m = mkPte pa perm &&& m := by
    unfold PTE_FLAGS
    rw [Nat.and_assoc, hm]
  rw [← hf, PTE_FLAGS_mkPte hperm]

theorem flags2perm_lt (flags : Nat) : flags2perm flags < 1024 := by
  unfold flags2perm
  split <;> split <;> decide

theorem field_lt {bs : List UInt8} : field bs off 8 < 2 ^ 64 := Bytes.ld_lt ..

theorem Space.sz_lt (h : Space c s r tf sz) : sz < 2 ^ 64 :=
  Nat.lt_of_le_of_lt (le_pages_mul sz)
    (Nat.lt_of_le_of_lt (Nat.mul_le_mul_right PGSIZE h.size) (by decide))

theorem Grew.oom (h : Grew c s s' r tf sz newsz perm res) (hres : res ≠ 0) :
    s'.oom = s.oom ∧ res = max sz newsz := by
  cases h with
  | fail => exact absurd rfl hres
  | ok space upd oom new old kept took => exact ⟨oom, rfl⟩

theorem Grew.mapped (h : Grew c s s' r tf sz newsz perm res) (hres : res ≠ 0) :
    (∀ u, pages sz ≤ u → u < pages newsz →
      ∃ pa, IsPage c pa ∧ s'.leaf r u = mkPte pa perm ∧ s'.mem pa = Bytes.fill 0) ∧
    (∀ u, u < 512 ^ 3 → ¬ (pages sz ≤ u ∧ u < pages newsz) → s'.leaf r u = s.leaf r u) ∧
    ∀ q ∈ s.user c r sz, s'.mem q = s.mem q := by
  cases h with
  | fail => exact absurd rfl hres
  | ok space upd oom new old kept took => exact ⟨new, old, kept⟩

theorem Grew.took (h : Grew c s s' r tf sz newsz perm res) (hres : res ≠ 0) :
    s.freelist.length ≤ s'.freelist.length + 3 * (pages newsz - pages sz) := by
  cases h with
  | fail => exact absurd rfl hres
  | ok space upd oom new old kept took => exact took

theorem Grew.few (h : Grew c s s' r tf sz newsz perm 0) :
    s.freelist.length < 3 * (pages newsz - pages sz) ∨ (sz = 0 ∧ newsz = 0) := by
  generalize hres : 0 = res at h
  cases h with
  | fail space upd oom old le few => exact .inl few
  | ok => exact .inr (by omega)

structure Segment where
  flags : Nat
  off : Nat
  vaddr : Nat
  filesz : Nat
  memsz : Nat
deriving DecidableEq

def Segment.ofHeader (ph : List UInt8) : Segment :=
  ⟨field ph 4 4, field ph 8 8, field ph 16 8, field ph 32 8, field ph 40 8⟩

def Segment.stop (g : Segment) : Nat := g.vaddr + g.memsz

/-- The segments to load among `n` program headers from `off` on. -/
def loads (img : Image) : Nat → Nat → List Segment
  | 0, _ => []
  | n + 1, off =>
    let ph := img.read off PROGHDR_SIZE
    if field ph 0 4 ≠ ELF_PROG_LOAD then loads img n ((off + PROGHDR_SIZE) % 2 ^ 32)
    else Segment.ofHeader ph :: loads img n ((off + PROGHDR_SIZE) % 2 ^ 32)

/-- All headers can be read, and those to load pass the checks on their numbers. -/
def headersOk (img : Image) : Nat → Nat → Bool
  | 0, _ => true
  | n + 1, off =>
    let ph := img.read off PROGHDR_SIZE
    let g := Segment.ofHeader ph
    decide (ph.length = PROGHDR_SIZE) &&
      (decide (field ph 0 4 ≠ ELF_PROG_LOAD) ||
        decide (g.filesz ≤ g.memsz) && decide (g.stop < 2 ^ 64)) &&
      headersOk img n ((off + PROGHDR_SIZE) % 2 ^ 32)

/-- `exec` on one segment: whether it went well, and the size reached. -/
def loadSegment (c : Board) (img : Image) (pagetable : Nat) (g : Segment) (sz : Nat) :
    K (Bool × Nat) := do
  let sz1 ← uvmalloc c pagetable sz (add64 g.vaddr g.memsz) (flags2perm g.flags)
  if sz1 = 0 then pure (false, sz)
  else do
    let r ← loadseg img pagetable g.vaddr (g.off % 2 ^ 32) (g.filesz % 2 ^ 32)
    if r < 0 then pure (false, sz1) else pure (true, sz1)

theorem add64_stop_iff (hv : g.vaddr < 2 ^ 64) (hm : g.memsz < 2 ^ 64) :
    ¬ add64 g.vaddr g.memsz < g.vaddr ↔ g.stop < 2 ^ 64 := by
  unfold add64 Segment.stop
  omega

theorem segments_succ (c : Board) (img : Image) (r n off sz : Nat) :
    segments c img r (n + 1) off sz =
      (let ph := img.read off PROGHDR_SIZE
      let g := Segment.ofHeader ph
      if ph.length ≠ PROGHDR_SIZE then pure (false, sz)
      else if field ph 0 4 ≠ ELF_PROG_LOAD then
        segments c img r n ((off + PROGHDR_SIZE) % 2 ^ 32) sz
      else if g.memsz < g.filesz then pure (false, sz)
      else if add64 g.vaddr g.memsz < g.vaddr then pure (false, sz)
      else do
        let (ok, sz1) ← loadSegment c img r g sz
        if ok = false then pure (false, sz1)
        else segments c img r n ((off + PROGHDR_SIZE) % 2 ^ 32) sz1) := by
  rw [segments]
  dsimp only [Segment.ofHeader]
  generalize img.read off PROGHDR_SIZE = ph
  refine if_congr .rfl rfl (if_congr .rfl rfl (if_congr .rfl rfl (if_congr .rfl rfl ?_)))
  unfold loadSegment
  rw [bind_assoc]
  refine bind_congr fun sz1 => ?_
  by_cases h0 : sz1 = 0
  · rw [if_pos h0, if_pos h0]
    rfl
  · rw [if_neg h0, if_neg h0, bind_assoc]
    refine bind_congr fun res => ?_
    by_cases hneg : res < 0
    · rw [if_pos hneg, if_pos hneg]
      rfl
    · rw [if_neg hneg, if_neg hneg]
      rfl

/-- **The loop over the headers.** What holds before the first segment and is kept by each
    holds after the last one; otherwise a segment has failed, or a header. -/
theorem segments_rule {I : List Segment → Nat → Vm → Prop} (bad : Nat → Vm → Prop)
    (hstep : ∀ L g rest sz s, all = L ++ g :: rest → g.filesz ≤ g.memsz → g.stop < 2 ^ 64 →
      I L sz s → wp (loadSegment c img r g sz) E
        (fun res s' => if res.1 then I (L ++ [g]) res.2 s' else bad res.2 s') s) :
    ∀ {n off sz : Nat} {L : List Segment} {s : Vm}, all = L ++ loads img n off → I L sz s →
    wp (segments c img r n off sz) E (fun res s' =>
      if res.1 then headersOk img n off = true ∧ I all res.2 s'
      else bad res.2 s' ∨ headersOk img n off = false ∧ ∃ L, I L res.2 s') s := by
  intro n
  induction n with
  | zero =>
    intro off sz L s hall hI
    rw [loads, List.append_nil] at hall
    exact ⟨rfl, hall ▸ hI⟩
  | succ n ih =>
    intro off sz L s hall hI
    have hstop : headersOk img (n + 1) off = false → wp (pure (false, sz)) E (fun res s' =>
        if res.1 then headersOk img (n + 1) off = true ∧ I all res.2 s'
        else bad res.2 s' ∨ headersOk img (n + 1) off = false ∧ ∃ L, I L res.2 s') s :=
      fun hno => .inr ⟨hno, L, hI⟩
    have hv := @field_lt 16 (img.read off PROGHDR_SIZE)
    have hm := @field_lt 40 (img.read off PROGHDR_SIZE)
    rw [segments_succ]
    rw [loads] at hall
    unfold headersOk at hstop ⊢
    generalize img.read off PROGHDR_SIZE = ph at *
    dsimp only [-Nat.reducePow] at hall hstop ⊢
    have hiff := @add64_stop_iff (Segment.ofHeader ph) hv hm
    obtain ⟨g, hg⟩ : ∃ g, g = Segment.ofHeader ph := ⟨_, rfl⟩
    rw [← hg] at hall hstop hiff ⊢
    by_cases h1 : ph.length ≠ PROGHDR_SIZE
    · rw [if_pos h1]
      exact hstop (by simp [h1])
    rw [if_neg h1]
    have h1 : ph.length = PROGHDR_SIZE := not_not.mp h1
    by_cases h2 : field ph 0 4 ≠ ELF_PROG_LOAD
    · rw [if_pos h2] at hall ⊢
      simp only [h1, h2, decide_true, Bool.true_and, Bool.true_or, ne_eq, not_false_eq_true]
      exact ih hall hI
    rw [if_neg h2] at hall ⊢
    by_cases h3 : g.memsz < g.filesz
    · rw [if_pos h3]
      exact hstop (by simp [h2, h3])
    by_cases h4 : add64 g.vaddr g.memsz < g.vaddr
    · rw [if_neg h3, if_pos h4]
      have hwrap : ¬ g.stop < 2 ^ 64 := fun hh => hiff.mpr hh h4
      exact hstop (by simp only [h2, hwrap, decide_false, Bool.and_false, Bool.or_false,
        Bool.false_and])
    rw [if_neg h3, if_neg h4]
    have h4 := hiff.mp h4
    have h3 := Nat.le_of_not_lt h3
    refine wp_call (hstep L g _ sz s hall h3 h4 hI) ?_
    rintro ⟨ok, sz1⟩ s₁ hres
    cases ok with
    | false => exact .inl hres
    | true =>
      simp only [h1, h3, h4, decide_true, Bool.true_and, Bool.or_true]
      exact ih (L := L ++ [g]) (by rw [hall, List.append_assoc]; rfl) hres

/-! ## The segments, one over the other -/

/-- A segment lays its part of the file over what was there. The offset and the length of
    that part are cut to 32 bits. -/
def Segment.over (img : Image) (f : Nat → UInt8) (g : Segment) (a : Nat) : UInt8 :=
  if g.vaddr ≤ a ∧ a < g.vaddr + g.filesz % 2 ^ 32 then img.data (g.off % 2 ^ 32 + (a - g.vaddr))
  else f a

def contents (img : Image) (L : List Segment) : Nat → UInt8 :=
  L.foldl (Segment.over img) fun _ => 0

def extent (L : List Segment) : Nat := L.foldl (fun sz g => max sz g.stop) 0

def firstAt (L : List Segment) (u : Nat) : Option Segment := L.find? fun g => u < pages g.stop

section
variable {u : Nat}

theorem contents_concat : contents img (L ++ [g]) = Segment.over img (contents img L) g := by
  unfold contents
  rw [List.foldl_append]
  rfl

theorem extent_concat : extent (L ++ [g]) = max (extent L) g.stop := by
  unfold extent
  rw [List.foldl_append]
  rfl

theorem stop_le_extent (hg : g ∈ L) : g.stop ≤ extent L := by
  induction L using List.reverseRecOn with
  | nil => cases hg
  | append_singleton L f ih =>
    rw [extent_concat]
    rcases List.mem_append.mp hg with h | h
    · exact (ih h).trans (Nat.le_max_left _ _)
    · rw [List.mem_singleton.mp h]
      exact Nat.le_max_right _ _

theorem contents_of_not_mem (hfit : ∀ g ∈ L, g.filesz ≤ g.memsz)
    (ha : ∀ g ∈ L, ¬ (g.vaddr ≤ a ∧ a < g.stop)) : contents img L a = 0 := by
  induction L using List.reverseRecOn with
  | nil => rfl
  | append_singleton L g ih =>
    have hg : g ∈ L ++ [g] := List.mem_append.mpr (.inr (List.mem_singleton_self g))
    have h1 := hfit g hg
    have h2 := ha g hg
    have h3 := Nat.mod_le g.filesz (2 ^ 32)
    unfold Segment.stop at h2
    rw [contents_concat, Segment.over, if_neg (by omega)]
    exact ih (fun f hf => hfit f (List.mem_append_left _ hf)) fun f hf => ha f (List.mem_append_left _ hf)

theorem contents_of_mem (hord : L.Pairwise fun g g' => g.stop ≤ g'.vaddr)
    (hfit : ∀ g ∈ L, g.filesz ≤ g.memsz) (hg : g ∈ L) (h1 : g.vaddr ≤ a) (h2 : a < g.stop) :
    contents img L a =
      if a < g.vaddr + g.filesz % 2 ^ 32 then img.data (g.off % 2 ^ 32 + (a - g.vaddr)) else 0 := by
  induction L using List.reverseRecOn with
  | nil => cases hg
  | append_singleton L f ih =>
    obtain ⟨hordL, -, hlast⟩ := List.pairwise_append.mp hord
    have hfitL : ∀ g ∈ L, g.filesz ≤ g.memsz := fun g hg => hfit g (List.mem_append_left _ hg)
    have hlast : ∀ g ∈ L, g.stop ≤ f.vaddr := fun g hg => hlast g hg f (List.mem_singleton_self f)
    rw [contents_concat, Segment.over]
    rcases List.mem_append.mp hg with hg | hg
    · have := hlast g hg
      rw [if_neg (by omega)]
      exact ih hordL hfitL hg
    · obtain rfl := List.mem_singleton.mp hg
      have hbelow : contents img L a = 0 := by
        refine contents_of_not_mem hfitL fun f hf => ?_
        have := hlast f hf
        omega
      rw [hbelow]
      exact if_congr (by omega) rfl rfl

theorem firstAt_concat : firstAt (L ++ [g]) u =
    (firstAt L u).or (if u < pages g.stop then some g else none) := by
  unfold firstAt
  rw [List.find?_append]
  congr 1
  by_cases h : u < pages g.stop
  · rw [if_pos h, List.find?_cons_of_pos (by simpa using h)]
  · rw [if_neg h, List.find?_cons_of_neg (by simpa using h)]
    rfl

theorem firstAt_mem {f : Segment} (h : firstAt L u = some f) : f ∈ L ∧ u < pages f.stop := by
  have hf := List.find?_some h
  exact ⟨List.mem_of_find?_eq_some h, of_decide_eq_true hf⟩

theorem firstAt_none (h : firstAt L u = none) : pages (extent L) ≤ u := by
  induction L using List.reverseRecOn with
  | nil => exact Nat.zero_le u
  | append_singleton L g ih =>
    rw [firstAt_concat, Option.or_eq_none_iff] at h
    rw [extent_concat]
    have h1 := ih h.1
    have h2 : ¬ u < pages g.stop := fun hu => by
      have := h.2
      rw [if_pos hu] at this
      cases this
    rcases Nat.le_total (extent L) g.stop with hle | hle
    · rw [Nat.max_eq_right hle]
      omega
    · rwa [Nat.max_eq_left hle]

theorem exists_firstAt (hu : u < pages (extent L)) : ∃ g, firstAt L u = some g := by
  cases hg : firstAt L u with
  | some g => exact ⟨g, rfl⟩
  | none => exact absurd (firstAt_none hg) (Nat.not_le.mpr hu)

theorem segment_perm_lt (g : Segment) : PTE_R ||| PTE_U ||| flags2perm g.flags < 1024 :=
  uvm_perm_lt (flags2perm_lt _)

theorem segment_user (pa : Nat) (g : Segment) :
    mkPte pa (PTE_R ||| PTE_U ||| flags2perm g.flags) &&& PTE_U ≠ 0 := by
  rw [mkPte_and (segment_perm_lt g) (by decide)]
  unfold flags2perm
  split <;> split <;> decide

end

/-- **The image after some segments**: the size they reach, the bytes they leave, and for each
    page the flags of the first segment that needed it. -/
structure Drawn (c : Board) (img : Image) (L : List Segment) (sz : Nat) (s : Vm) (r : Nat) :
    Prop where
  size : sz = extent L
  bytes : ∀ a, vpn a < pages sz → s.byte r a = contents img L a
  leaf : ∀ u g, firstAt L u = some g →
    ∃ pa, IsPage c pa ∧ s.leaf r u = mkPte pa (PTE_R ||| PTE_U ||| flags2perm g.flags)
  fit : ∀ g ∈ L, g.filesz ≤ g.memsz
  file : ∀ g ∈ L, 0 < g.filesz % 2 ^ 32 → g.off % 2 ^ 32 + g.filesz % 2 ^ 32 ≤ img.size

def Unloadable (img : Image) (g : Segment) (sz : Nat) (s : Vm) : Prop :=
  s.freelist.length < 3 * (pages g.stop - pages sz) ∨ (sz = 0 ∧ g.stop = 0) ∨
    (0 < g.filesz % 2 ^ 32 ∧ ¬ g.off % 2 ^ 32 + g.filesz % 2 ^ 32 ≤ img.size)

theorem drawn_nil : Drawn c img [] 0 s r where
  size := rfl
  bytes a ha := absurd ha (Nat.not_lt_zero _)
  leaf u g h := by cases h
  fit g h := by cases h
  file g h := by cases h

theorem Vm.byte_congr (hl : s'.leaf r (vpn a) = s.leaf r (vpn a))
    (hm : s'.mem (PTE2PA (s.leaf r (vpn a))) = s.mem (PTE2PA (s.leaf r (vpn a)))) :
    s'.byte r a = s.byte r a := by
  unfold Vm.byte Vm.phys
  rw [hl]
  dsimp only
  rw [hm]

theorem Grew.bytes {xperm : Nat} (h : Grew c s s' r tf sz newsz (PTE_R ||| PTE_U ||| xperm) res)
    (hx : xperm < 1024) (hsz : pages sz ≤ vShadow) (hres : res ≠ 0)
    (ha : vpn a < max (pages sz) (pages newsz)) :
    s'.byte r a = if vpn a < pages sz then s.byte r a else 0 := by
  obtain ⟨new, old, kept⟩ := h.mapped hres
  have hlt : vShadow < 512 ^ 3 := by decide
  by_cases hin : vpn a < pages sz
  · rw [if_pos hin]
    exact Vm.byte_congr (old _ (by omega) (by omega)) (kept _ (mem_user_of_lt hin))
  · rw [if_neg hin]
    obtain ⟨pa, hpa, hl, hz⟩ := new (vpn a) (by omega) (by omega)
    unfold Vm.byte Vm.phys
    rw [hl]
    dsimp only
    rw [PTE2PA_mkPte (uvm_perm_lt hx) (by have := hpa.lt; omega) hpa.1, hz]
    rfl

theorem open_of_leaf (h : ∀ u g, firstAt L u = some g →
    ∃ pa, IsPage c pa ∧ s.leaf r u = mkPte pa (PTE_R ||| PTE_U ||| flags2perm g.flags)) :
    Open s r (pages (extent L)) := by
  intro u hu
  obtain ⟨g, hg⟩ := exists_firstAt hu
  obtain ⟨pa, -, he⟩ := h u g hg
  rw [he]
  exact segment_user pa g

/-- **One segment** over those before it. -/
theorem loadSegment_draws (hfit : g.filesz ≤ g.memsz) (hstop : g.stop < 2 ^ 64)
    (h : Space c s r tf sz) (ho : Own c s (s.space c r sz)) (hd : Drawn c img L sz s r) :
    wp (loadSegment c img r g sz) E (fun res s' => Became c s s' r tf sz res.2 ∧
      if res.1 then s'.oom = s.oom ∧ Drawn c img (L ++ [g]) res.2 s' r ∧
        s.freelist.length ≤ s'.freelist.length + 3 * (pages g.stop - pages sz)
      else Unloadable img g sz s) s := by
  have hadd : add64 g.vaddr g.memsz = g.stop := add64_of_lt hstop
  unfold loadSegment
  rw [hadd]
  refine wp_call (h.grow ho (flags2perm_lt _)) ?_
  intro sz1 s₁ hg
  have hb := hg.became
  by_cases h5 : sz1 = 0
  · rw [if_pos h5] at hb ⊢
    subst h5
    refine ⟨hb, ?_⟩
    rcases hg.few with hfew | hempty
    · exact .inl hfew
    · exact .inr (.inl hempty)
  rw [if_neg h5] at hb ⊢
  obtain ⟨hoom, hsz1⟩ := hg.oom h5
  obtain ⟨new, old, -⟩ := hg.mapped h5
  have htook := hg.took h5
  have ho1 := hb.own' ho
  have hext : sz1 = extent (L ++ [g]) := by
    rw [extent_concat, ← hd.size]
    exact hsz1
  have hle : g.vaddr + g.filesz % 2 ^ 32 ≤ sz1 := by
    have h1 := Nat.mod_le g.filesz (2 ^ 32)
    have h2 := Nat.le_max_right sz g.stop
    unfold Segment.stop at h2 hsz1
    omega
  have hpages : pages sz1 = max (pages sz) (pages g.stop) := by
    rw [hsz1]
    rcases Nat.le_total sz g.stop with hl | hl
    · rw [Nat.max_eq_right hl, Nat.max_eq_right (pages_mono hl)]
    · rw [Nat.max_eq_left hl, Nat.max_eq_left (pages_mono hl)]
  have hleaf : ∀ u f, firstAt (L ++ [g]) u = some f → ∃ pa, IsPage c pa ∧
      s₁.leaf r u = mkPte pa (PTE_R ||| PTE_U ||| flags2perm f.flags) := by
    intro u f hf
    have hsh := hb.space.size
    have hlt : vShadow < 512 ^ 3 := by decide
    rw [firstAt_concat] at hf
    cases hL : firstAt L u with
    | some f' =>
      rw [hL, Option.some_or] at hf
      obtain rfl := Option.some.inj hf
      obtain ⟨hmem, hu⟩ := firstAt_mem hL
      have hu' : u < pages sz := hu.trans_le (hd.size ▸ pages_mono (stop_le_extent hmem))
      rw [old u (by omega) (by omega)]
      exact hd.leaf u f' hL
    | none =>
      have hge := firstAt_none hL
      rw [← hd.size] at hge
      rw [hL, Option.none_or] at hf
      split at hf
      · rename_i hu
        obtain rfl := Option.some.inj hf
        obtain ⟨pa, hpa, hl, -⟩ := new u hge hu
        exact ⟨pa, hpa, hl⟩
      · cases hf
  have hop1 : Open s₁ r (pages sz1) := hext ▸ open_of_leaf hleaf
  refine wp_call (loadseg_bytes hle hb.space.sz_lt (Nat.mod_lt _ (by decide)) hb.space ho1 hop1) ?_
  rintro res s₂ ⟨hw, hend⟩
  have hb2 := hb.trans (hw.became hb.space ho1)
  rcases hend with ⟨rfl, hin, hpaint⟩ | ⟨rfl, hpos, hshort⟩
  · rw [if_neg (by decide)]
    refine ⟨hb2, hw.oom.trans hoom, ⟨hext, ?_, ?_, ?_, ?_⟩, ?_⟩
    · intro a ha
      rw [hpaint a ha, contents_concat]
      unfold Segment.over
      refine if_congr .rfl rfl ?_
      rw [hg.bytes (flags2perm_lt _) h.size h5 (hpages ▸ ha)]
      by_cases hin : vpn a < pages sz
      · rw [if_pos hin, hd.bytes a hin]
      · rw [if_neg hin, contents_of_not_mem hd.fit]
        intro f hf
        have h1 := stop_le_extent hf
        have h2 : ¬ a < sz := fun hlt => hin (vpn_lt_pages hlt)
        rw [hd.size] at h2
        omega
    · intro u f hf
      rw [hw.leaf ho1]
      exact hleaf u f hf
    · intro f hf
      rcases List.mem_append.mp hf with hf | hf
      · exact hd.fit f hf
      · rw [List.mem_singleton.mp hf]
        exact hfit
    · intro f hf
      rcases List.mem_append.mp hf with hf | hf
      · exact hd.file f hf
      · rw [List.mem_singleton.mp hf]
        exact hin
    · rwa [hw.free]
  · rw [if_pos (by decide)]
    exact ⟨hb2, .inr (.inr ⟨hpos, hshort⟩)⟩

def Hopeless (img : Image) (L : List Segment) (s : Vm) : Prop :=
  s.freelist.length < 3 * pages (extent L) ∨ ∃ g ∈ L, g.stop = 0 ∨
    (0 < g.filesz % 2 ^ 32 ∧ ¬ g.off % 2 ^ 32 + g.filesz % 2 ^ 32 ≤ img.size)

theorem Unloadable.hopeless (h : Unloadable img g sz s') (hg : g ∈ all)
    (htook : s.freelist.length ≤ s'.freelist.length + 3 * pages sz) : Hopeless img all s := by
  rcases h with hfew | ⟨-, h0⟩ | hshort
  · have := pages_mono (stop_le_extent hg)
    exact .inl (by omega)
  · exact .inr ⟨g, hg, .inl h0⟩
  · exact .inr ⟨g, hg, .inr hshort⟩

/-- **The segments of a file**, on an empty address space. -/
theorem segments_draws (h : Space c s r tf 0) (ho : Own c s (s.space c r 0)) :
    wp (segments c img r n off 0) E (fun res s' => Became c s s' r tf 0 res.2 ∧
      if res.1 then s'.oom = s.oom ∧ Drawn c img (loads img n off) res.2 s' r ∧
        s.freelist.length ≤ s'.freelist.length + 3 * pages res.2
      else headersOk img n off = false ∨ Hopeless img (loads img n off) s) s := by
  refine wp_mono (segments_rule (L := [])
    (fun sz' s' => Became c s s' r tf 0 sz' ∧ Hopeless img (loads img n off) s)
    (I := fun L sz' s' => Became c s s' r tf 0 sz' ∧ s'.oom = s.oom ∧ Drawn c img L sz' s' r ∧
      s.freelist.length ≤ s'.freelist.length + 3 * pages sz') ?_ rfl
    ⟨Became.refl h, rfl, drawn_nil, Nat.le_add_right _ _⟩) ?_
  · rintro L g rest sz' s' hall hfit hstop ⟨hb, hoom, hd, htook⟩
    have hall : loads img n off = L ++ g :: rest := hall
    have hg : g ∈ loads img n off := by
      rw [hall]
      exact List.mem_append_right _ List.mem_cons_self
    refine wp_mono (loadSegment_draws hfit hstop hb.space (hb.own' ho) hd) ?_
    rintro ⟨ok, sz1⟩ s₁ ⟨hb1, hres⟩
    cases ok with
    | false => exact ⟨hb.trans hb1, hres.hopeless hg htook⟩
    | true =>
      obtain ⟨hoom1, hd1, htook1⟩ := hres
      refine ⟨hb.trans hb1, hoom1.trans hoom, hd1, ?_⟩
      have hsz1 : sz1 = max sz' g.stop := by
        rw [hd.size, ← extent_concat]
        exact hd1.size
      have h1 : pages g.stop ≤ pages sz1 := pages_mono (by omega)
      have h2 : pages sz' ≤ pages sz1 := pages_mono (by omega)
      show s.freelist.length ≤ s₁.freelist.length + 3 * pages sz1
      omega
  · rintro ⟨ok, sz1⟩ s₁ hres
    cases ok with
    | false =>
      rcases hres with ⟨hb, hbad⟩ | ⟨hno, -, hb, -⟩
      · exact ⟨hb, .inr hbad⟩
      · exact ⟨hb, .inl hno⟩
    | true => exact hres.2

theorem Drawn.congr (h : Drawn c img L sz s r) (hl : ∀ u, u < pages sz → s'.leaf r u = s.leaf r u)
    (hm : ∀ u, u < pages sz → s'.mem (PTE2PA (s.leaf r u)) = s.mem (PTE2PA (s.leaf r u))) :
    Drawn c img L sz s' r where
  size := h.size
  bytes a ha := (Vm.byte_congr (hl _ ha) (hm _ ha)).trans (h.bytes a ha)
  leaf u g hg := by
    obtain ⟨hmem, hu⟩ := firstAt_mem hg
    rw [hl u (hu.trans_le (h.size ▸ pages_mono (stop_le_extent hmem)))]
    exact h.leaf u g hg
  fit := h.fit
  file := h.file

/-! ## The stack -/

/-- The last page below `sz` is the page `pa`, in which a user can write. -/
structure StackTop (s : Vm) (r sz pa : Nat) : Prop where
  aligned : sz % PGSIZE = 0
  room : 2 * PGSIZE ≤ sz
  le : sz ≤ MAXVA
  page : PTE2PA (s.leaf r (sz / PGSIZE - 1)) = pa
  valid : isValid (s.leaf r (sz / PGSIZE - 1))
  user : s.leaf r (sz / PGSIZE - 1) &&& PTE_U ≠ 0
  write : s.leaf r (sz / PGSIZE - 1) &&& PTE_W ≠ 0

/-- `exec` from its two stack pages on: the size reached, or the size to free on `bad`. -/
def addStack (c : Board) (pagetable sz : Nat) : K (Sum Nat Nat) := do
  let sz1 ← uvmalloc c pagetable sz (add64 sz (2 * PGSIZE)) PTE_W
  if sz1 = 0 then pure (.inl sz)
  else do
    uvmclear pagetable (sz1 - 2 * PGSIZE)
    pure (.inr sz1)

def loadStack (c : Board) (img : Image) (phoff phnum pagetable : Nat) : K (Sum Nat Nat) := do
  let (ok, sz) ← segments c img pagetable phnum phoff 0
  if ok = false then pure (.inl sz) else addStack c pagetable (PGROUNDUP sz)

theorem Space.clear {v : Nat} (h : Space c s r tf sz) (ho : Own c s (s.space c r sz))
    (hv : v < pages sz) :
    wp (uvmclear r (v * PGSIZE)) E (fun _ s' => s'.oom = s.oom ∧ Became c s s' r tf sz sz ∧
      (∀ u, u < 512 ^ 3 → u ≠ v → s'.leaf r u = s.leaf r u) ∧
      s'.leaf r v = s.leaf r v &&& (2 ^ 64 - 1 - PTE_U) ∧
      ∀ q ∈ s.user c r sz, s'.mem q = s.mem q) s := by
  have hsz := h.size
  have hv26 : v < 2 ^ 26 := Nat.lt_of_lt_of_le (hv.trans_le hsz) (by decide)
  have hnd : (s.nodes r).Nodup := ho.nodup_left
  refine wp_mono (uvmclear_spec hnd hv26 (h.low v hv)) ?_
  rintro _ s' ⟨ht, hoom, hl⟩
  have hlt : vShadow < 512 ^ 3 := by decide
  have hne : ∀ u, u < 512 ^ 3 → u ≠ v → s'.leaf r u = s.leaf r u := by
    intro u hu huv
    rw [hl u hu, if_neg huv]
  have hself : s'.leaf r v = s.leaf r v &&& (2 ^ 64 - 1 - PTE_U) := by
    rw [hl v (by omega), if_pos rfl]
  refine ⟨hoom, ⟨h.resize ht.inner hsz ?_ ?_ ?_, ?_, hne _ hlt (by omega)⟩, hne, hself,
    fun q hq => ht.mem_of_own ho hq⟩
  · intro u hu
    by_cases huv : u = v
    · rw [huv, hself]
      exact ⟨isValid_and_not_U.mpr (h.low v hv), isLeaf_and_not_U.mpr (h.low_leaf hv).2⟩
    · rw [hne u (by omega) huv]
      exact h.low_leaf hu
  · intro u h1 h2
    rw [hne u (by omega) (by omega)]
    exact h.zero_above h1 h2
  · intro u h1 h2
    exact hne u h2 (by omega)
  · have huser : s'.user c r sz = s.user c r sz := by
      unfold Vm.user
      rw [shadowOf_congr (hne _ hlt (by omega))]
      refine congrArg (· + s.shadowOf c r) ?_
      unfold Vm.targets
      refine Multiset.map_congr rfl fun k hk => ?_
      have hk := Multiset.mem_range.mp hk
      by_cases hkv : 0 + k = v
      · rw [hkv, hself]
        exact PTE2PA_and_not_U Vm.leaf_lt
      · rw [hne _ (by omega) hkv]
    rw [huser]
    exact ht.upd _

theorem PGROUNDUP_pages (h : pages sz ≤ 2 ^ 26) : pages (PGROUNDUP sz) = pages sz := by
  rw [PGROUNDUP_of_pages h, pages_mul]

/-- What the two pages above `sz` are: one that nobody may use, and the stack. -/
structure StackAdded (c : Board) (s s' : Vm) (r tf sz sz1 pa : Nat) : Prop where
  size : sz1 = sz + 2 * PGSIZE
  became : Became c s s' r tf sz sz1
  top : StackTop s' r sz1 pa
  old : ∀ u, u < pages sz → s'.leaf r u = s.leaf r u
  kept : ∀ q ∈ s.user c r sz, s'.mem q = s.mem q

theorem addStack_spec {k : Nat} (h : Space c s r tf (k * PGSIZE)) (ho : Own c s (s.space c r (k * PGSIZE))) :
    wp (addStack c r (k * PGSIZE)) E (fun res s' =>
      match res with
      | .inl sz' => Became c s s' r tf (k * PGSIZE) sz' ∧ s.freelist.length < 6
      | .inr sz1 => s'.oom = s.oom ∧ ∃ pa, StackAdded c s s' r tf (k * PGSIZE) sz1 pa) s := by
  have hpg : PGSIZE = 4096 := rfl
  have hk : k ≤ vShadow := by
    have := h.size
    rwa [pages_mul] at this
  have hlt : vShadow < 512 ^ 3 := by decide
  have hsh : vShadow < 2 ^ 26 := by decide
  have hk0 : k * PGSIZE = k * 4096 := rfl
  have hk2 : (k + 2) * PGSIZE = (k + 2) * 4096 := rfl
  unfold addStack
  refine wp_call (h.grow ho (by decide)) ?_
  intro sz1 s₁ hg
  have hb := hg.became
  have hadd : add64 (k * PGSIZE) (2 * PGSIZE) = (k + 2) * PGSIZE := by
    rw [add64_of_lt, ← Nat.add_mul]
    omega
  by_cases h0 : sz1 = 0
  · rw [if_pos h0] at hb ⊢
    subst h0
    have hfew := hg.few
    rw [hadd, pages_mul, pages_mul] at hfew
    exact ⟨hb, by omega⟩
  rw [if_neg h0] at hb ⊢
  have hsz1 : sz1 = (k + 2) * PGSIZE := by
    rw [(hg.oom h0).2, hadd]
    omega
  have hpages : pages sz1 = k + 2 := by rw [hsz1, pages_mul]
  have hguard : sz1 - 2 * PGSIZE = k * PGSIZE := by omega
  rw [hguard]
  have ho1 := hb.own' ho
  refine wp_call (hb.space.clear ho1 (v := k) (by omega)) ?_
  rintro _ s₂ ⟨hoom, hb2, hne, -, hmem⟩
  obtain ⟨new, old, kept⟩ := hg.mapped h0
  rw [hadd, pages_mul, pages_mul] at new old
  obtain ⟨pa, hpa, hleaf, -⟩ := new (k + 1) (by omega) (by omega)
  have hsz' := hb.space.size
  have hperm : PTE_R ||| PTE_U ||| PTE_W < 1024 := by decide
  have htop : sz1 / PGSIZE - 1 = k + 1 := by
    rw [hsz1, Nat.mul_div_cancel _ (by decide)]
    omega
  have hleaf2 : s₂.leaf r (sz1 / PGSIZE - 1) = mkPte pa (PTE_R ||| PTE_U ||| PTE_W) := by
    rw [htop, hne (k + 1) (by omega) (by omega), hleaf]
  refine ⟨hoom.trans (hg.oom h0).1, pa, by omega, hb.trans hb2, ⟨?_, by omega, ?_, ?_, ?_, ?_, ?_⟩, ?_, ?_⟩
  · rw [hsz1]
    exact Nat.mul_mod_left _ _
  · have hmax : MAXVA = 2 ^ 26 * 4096 := by decide
    omega
  · rw [hleaf2]
    exact PTE2PA_mkPte hperm (by have := hpa.lt; omega) hpa.1
  · rw [hleaf2]
    exact isValid_mkPte hperm
  · rw [hleaf2, mkPte_and hperm (by decide)]
    decide
  · rw [hleaf2, mkPte_and hperm (by decide)]
    decide
  · intro u hu
    rw [pages_mul] at hu
    rw [hne u (by omega) (by omega), old u (by omega) (by omega)]
  · intro q hq
    refine (hmem q ?_).trans (kept q hq)
    rcases mem_user.mp hq with ⟨u, hu, rfl⟩ | ⟨h1, h2, h3⟩
    · rw [pages_mul] at hu
      rw [← old u (by omega) (by omega)]
      exact mem_user_of_lt (by omega)
    · refine mem_user.mpr (.inr ⟨h1, ?_, ?_⟩)
      · rwa [hb.shadowPage]
      · rwa [hb.shadowPage]

/-- **The image below its stack**, or why there is none. -/
theorem loadStack_draws (h : Space c s r tf 0) (ho : Own c s (s.space c r 0)) :
    wp (loadStack c img off n r) E (fun res s' =>
      match res with
      | .inl sz => Became c s s' r tf 0 sz ∧ (headersOk img n off = false ∨
          Hopeless img (loads img n off) s ∨
          s.freelist.length < 3 * (pages (extent (loads img n off)) + 2))
      | .inr sz1 => Became c s s' r tf 0 sz1 ∧ s'.oom = s.oom ∧ (∃ pa, StackTop s' r sz1 pa) ∧
          sz1 = (pages (extent (loads img n off)) + 2) * PGSIZE ∧
          Drawn c img (loads img n off) (extent (loads img n off)) s' r) s := by
  unfold loadStack
  refine wp_call (segments_draws h ho) ?_
  rintro ⟨ok, sz⟩ s₁ ⟨hb0, hres⟩
  have hb0 : Became c s s₁ r tf 0 sz := hb0
  cases ok with
  | false =>
    rcases hres with hno | hbad
    · exact ⟨hb0, .inl hno⟩
    · exact ⟨hb0, .inr (.inl hbad)⟩
  | true =>
    obtain ⟨hoom, hd, htook⟩ := hres
    dsimp only at hd htook
    have hsz26 : pages sz ≤ 2 ^ 26 := hb0.space.size.trans (by decide)
    have hb1 : Became c s s₁ r tf 0 (PGROUNDUP sz) := hb0.resize (PGROUNDUP_pages hsz26)
    change wp (if true = false then _ else _) E _ s₁
    rw [if_neg (by decide), PGROUNDUP_of_pages hsz26]
    rw [PGROUNDUP_of_pages hsz26] at hb1
    rw [← hd.size]
    refine wp_mono (addStack_spec hb1.space (hb1.own' ho)) ?_
    intro res s₂ hres
    cases res with
    | inl n =>
      obtain ⟨hb2, hfew⟩ := hres
      exact ⟨hb1.trans hb2, .inr (.inr (by omega))⟩
    | inr sz1 =>
      obtain ⟨hoom2, pa, hadd⟩ := hres
      refine ⟨hb1.trans hadd.became, hoom2.trans hoom, ⟨pa, hadd.top⟩,
        by rw [hadd.size, Nat.add_mul], hd.congr (fun u hu => ?_) fun u hu => ?_⟩
      · exact hadd.old u (by rwa [pages_mul])
      · exact hadd.kept _ (mem_user_of_lt (by rwa [pages_mul]))

/-! ## The arguments -/

/-- The arguments of `exec` with everything else in place. -/
def pushAll (pagetable sz : Nat) (argv : List (List UInt8)) : K (Sum Nat Loaded) := do
  match ← pushArgs pagetable (sz - PGSIZE) argv sz [] with
  | none => pure (.inl sz)
  | some (sp, ustack) =>
    pushArgv pagetable sz (sz - PGSIZE) (pushed sp ((ustack.length + 1) * 8)) ustack

theorem loadProgram_eq (c : Board) (img : Image) (phoff phnum : Nat) (argv : List (List UInt8))
    (r : Nat) : loadProgram c img phoff phnum argv r = (do
      match ← loadStack c img phoff phnum r with
      | .inl sz => pure (.inl sz)
      | .inr sz1 => pushAll r sz1 argv) := by
  unfold loadProgram loadStack
  rw [bind_assoc]
  refine bind_congr fun x => ?_
  obtain ⟨ok, sz⟩ := x
  cases ok with
  | false => rfl
  | true =>
    show (if true = false then _ else _) = (if true = false then _ else _ : K (Sum Nat Nat)) >>= _
    rw [if_neg (by decide), if_neg (by decide)]
    unfold addStack
    rw [bind_assoc]
    refine bind_congr fun sz1 => ?_
    by_cases h0 : sz1 = 0
    · rw [if_pos h0, if_pos h0]
      rfl
    · rw [if_neg h0, if_neg h0, bind_assoc]
      rfl

theorem pushArgs_spec : ∀ {args : List (List UInt8)} {sp : Nat} {ustack : List Nat}
    {s : Vm}, Space c s r tf sz → Own c s (s.space c r sz) →
    wp (pushArgs r stackbase args sp ustack) E (fun _ s' => Wrote s s' (s.user c r sz)) s := by
  intro args
  induction args with
  | nil => intro sp ustack s _ _; exact Wrote.refl _ _
  | cons arg args ih =>
    intro sp ustack s h ho
    unfold pushArgs
    split
    · exact Wrote.refl _ _
    · dsimp only
      split
      · exact Wrote.refl _ _
      · refine wp_call (copyout_spec h ho) ?_
        intro res s₁ hw
        split
        · exact hw
        · exact hw.andThen h ho ih

theorem pushArgv_spec {sp : Nat} {ustack : List Nat} (h : Space c s r tf sz)
    (ho : Own c s (s.space c r sz)) : wp (pushArgv r sz stackbase sp ustack) E
      (fun res s' => Wrote s s' (s.user c r sz) ∧ Sum.elim id Loaded.sz res = sz) s := by
  unfold pushArgv
  split
  · exact ⟨Wrote.refl _ _, rfl⟩
  · refine wp_call (copyout_spec h ho) ?_
    intro res s₁ hw
    split <;> exact ⟨hw, rfl⟩

def LoadedTo (c : Board) (s s' : Vm) (r tf : Nat) : Sum Nat Loaded → Prop
  | .inl sz => Became c s s' r tf 0 sz
  | .inr p => Became c s s' r tf 0 p.sz ∧ s'.oom = s.oom ∧ 2 ≤ pages p.sz

/-- **Loading a program** leaves an address space, whichever way it ends. -/
theorem loadProgram_spec {phoff phnum : Nat} {argv : List (List UInt8)} (h : Space c s r tf 0)
    (ho : Own c s (s.space c r 0)) :
    wp (loadProgram c img phoff phnum argv r) E (fun res s' => LoadedTo c s s' r tf res) s := by
  rw [loadProgram_eq]
  refine wp_call (loadStack_draws h ho) ?_
  intro res s₁ hres
  cases res with
  | inl sz => exact hres.1
  | inr sz =>
    obtain ⟨hb, hoom, ⟨pa, ht⟩, hsz, -⟩ := hres
    have ho1 := hb.own' ho
    have h2 : 2 ≤ pages sz := by
      rw [hsz, pages_mul]
      exact Nat.le_add_left 2 _
    dsimp only
    unfold pushAll
    generalize sz - PGSIZE = stackbase
    refine wp_call (pushArgs_spec hb.space ho1) ?_
    intro res s₂ hw
    have hb2 := hb.trans (hw.became hb.space ho1)
    match res with
    | none => exact hb2
    | some (sp, ustack) =>
      have ho2 := hb2.own' ho
      dsimp only
      refine wp_mono (pushArgv_spec hb2.space ho2) ?_
      rintro res s₃ ⟨hw2, hsz2⟩
      have hb3 := hb2.trans (hw2.became hb2.space ho2)
      rw [← hsz2] at hb3 h2
      cases res with
      | inl sz' => exact hb3
      | inr p => exact ⟨hb3, hw2.oom.trans (hw.oom.trans hoom), h2⟩

end ZeptOS.Mem
