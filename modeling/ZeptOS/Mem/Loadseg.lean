import ZeptOS.Mem.Copy

/-!
# Copying a segment from its file

`loadseg` looks up every page it writes, and copies into it what the file has, byte by byte. `exec` has
checked nothing of the headers but that `vaddr + memsz` does not wrap, so the invariant has to say why
no address that `loadseg` looks up can be missing: every page below the size reached is there and open
to the user. The last page to lose that is the guard page, after the last segment.
-/

namespace ZeptOS.Mem

open Lib Lib.Prog Multiset

variable {s'' : Vm} {a m n va fsz off offset : Nat} {img : Image}

def Open (s : Vm) (r n : Nat) : Prop := ∀ v, v < n → s.leaf r v &&& PTE_U ≠ 0

/-! ## Reading the file -/

theorem Image.read_of_le (h : off + n ≤ img.size) :
    img.read off n = (List.range n).map fun k => img.data (off + k) := by
  have hsize := img.size_le
  have hmax : MAXFILE * BSIZE < 2 ^ 32 := by decide
  unfold Image.read
  have hmod : (off + n) % 2 ^ 32 = off + n := Nat.mod_eq_of_lt (by omega)
  rw [hmod, if_neg (by omega), if_neg (by omega)]

theorem Image.length_read (hn : n ≤ PGSIZE) (hpos : 0 < n) :
    (img.read off n).length = n ↔ off + n ≤ img.size := by
  have hsize := img.size_le
  have hmax : MAXFILE * BSIZE + PGSIZE < 2 ^ 32 := by decide
  constructor
  · intro h
    by_contra hbig
    unfold Image.read at h
    split at h
    · rw [List.length_nil] at h
      omega
    · rename_i hok
      have hle : off ≤ img.size := by omega
      rw [List.length_map, List.length_range, Nat.mod_eq_of_lt (by omega), if_pos (by omega)] at h
      omega
  · intro h
    rw [Image.read_of_le h, List.length_map, List.length_range]

theorem Image.read_zero (img : Image) (off : Nat) : img.read off 0 = [] := by
  unfold Image.read
  split
  · rfl
  · rename_i hok
    rw [if_neg]
    · rfl
    · rw [Nat.add_zero]
      have := Nat.mod_le off (2 ^ 32)
      omega

/-! ## Writing to one page -/

section
variable {c : Board} {s s' : Vm} {E : Panic → Prop} {r tf sz : Nat}

theorem Wrote.opened (h : Wrote s s' (s.user c r sz)) (ho : Own c s (s.space c r sz))
    (hop : Open s r n) : Open s' r n := fun v hv => by
  rw [h.leaf ho v]
  exact hop v hv

theorem vpn_lt_pages (h : a < sz) : vpn a < pages sz := by
  have h1 := mul_lt_iff.mp (Nat.lt_of_le_of_lt (Nat.div_mul_le_self a PGSIZE) h)
  exact h1

theorem vpn_lt_pages_of_unaligned (h : va ≤ sz) (hal : va % PGSIZE ≠ 0) : vpn va < pages sz := by
  rcases Nat.lt_or_ge va sz with hlt | hge
  · exact vpn_lt_pages hlt
  · have he : va = sz := by omega
    have hdm := Nat.div_add_mod va PGSIZE
    refine mul_lt_iff.mp ?_
    rw [← he, Nat.mul_comm]
    unfold vpn
    omega

theorem Own.page_inj {u v : Nat} (ho : Own c s (s.space c r sz)) (hu : u < pages sz)
    (hv : v < pages sz) (h : PTE2PA (s.leaf r u) = PTE2PA (s.leaf r v)) : u = v := by
  have hnd : (s.targets r 0 (pages sz)).Nodup := by
    refine nodup_of_le ?_ ho.nodup
    refine le_trans ?_ (le_add_right _ _)
    exact (le_add_right _ _).trans (le_add_left _ _)
  refine inj_on_of_nodup_map hnd u (mem_range.mpr hu) v
    (mem_range.mpr hv) ?_
  rw [Nat.zero_add, Nat.zero_add]
  exact h

theorem walkaddr_user_eq (h : Space c s r tf sz) (hop : Open s r (pages sz))
    (hv : vpn va < pages sz) :
    walkaddr r va s = .ok (PTE2PA (s.leaf r (vpn va)) + va % PGSIZE, s) := by
  have hlt : vpn va < MAXVA / PGSIZE := by
    have h1 : vShadow < MAXVA / PGSIZE := by decide
    have h2 := h.size
    omega
  rw [Tables.walkaddr_eq]
  unfold PMap.addr
  rw [Vm.map_of_lt hlt]
  unfold entry
  rw [if_pos (h.low _ hv)]
  dsimp only
  rw [flags_and_U, if_neg (hop _ hv)]

theorem byte_put (ho : Own c s (s.space c r sz)) (hv : vpn va < pages sz) {bs : List UInt8}
    (hbs : bs.length ≤ PGSIZE - va % PGSIZE) (hs' : s' = s.put (PTE2PA (s.leaf r (vpn va)))
      ((s.mem (PTE2PA (s.leaf r (vpn va)))).blit (va % PGSIZE) bs)) (ha : vpn a < pages sz) :
    s'.byte r a = if va ≤ a then (bs[a - va]?).getD (s.byte r a) else s.byte r a := by
  have hw : Wrote s s' (s.user c r sz) := hs' ▸ wrote_put (mem_user_of_lt hv)
  have hoff : va % PGSIZE < PGSIZE := Nat.mod_lt _ (by decide)
  have hdv : PGSIZE * vpn va + va % PGSIZE = va := Nat.div_add_mod va PGSIZE
  have hda : PGSIZE * vpn a + a % PGSIZE = a := Nat.div_add_mod a PGSIZE
  have hpg : PGSIZE = 4096 := rfl
  unfold Vm.byte Vm.phys
  rw [hw.leaf ho]
  dsimp only
  by_cases heq : vpn a = vpn va
  · rw [heq, hs', Vm.put_mem_self]
    rw [heq] at hda
    unfold Bytes.blit
    by_cases hle : va ≤ a
    · rw [if_pos hle, if_pos (by omega), show a % PGSIZE - va % PGSIZE = a - va by omega]
    · rw [if_neg hle, if_neg (by omega)]
  · rw [hs', Vm.put_mem_of_ne fun hq => heq (ho.page_inj ha hv hq)]
    split
    · rw [List.getElem?_eq_none]
      · rfl
      · -- another page further up
        have hlt : vpn va < vpn a :=
          Nat.lt_of_le_of_ne (Nat.div_le_div_right (by assumption)) fun h => heq h.symm
        have hmul : PGSIZE * (vpn va + 1) ≤ PGSIZE * vpn a := Nat.mul_le_mul_left _ hlt
        rw [Nat.mul_succ] at hmul
        omega
    · rfl

/-- One read of `loadseg`: it has copied `n` bytes to an address, or the file is too short. -/
theorem wp_load {f : Nat → K Int} {Q : Int → Vm → Prop}
    (h : Space c s r tf sz) (ho : Own c s (s.space c r sz)) (hop : Open s r (pages sz))
    (hv : vpn va < pages sz) (hn : n ≤ PGSIZE - va % PGSIZE)
    (hQ : ∀ s', Wrote s s' (s.user c r sz) → (0 < n → off + n ≤ img.size) →
      (∀ a, vpn a < pages sz → s'.byte r a =
        if va ≤ a ∧ a < va + n then img.data (off + (a - va)) else s.byte r a) →
      wp (f n) E Q s')
    (hshort : ∀ m s', Wrote s s' (s.user c r sz) → 0 < n → ¬ off + n ≤ img.size → m ≠ n →
      wp (f m) E Q s') :
    wp (do
      let pa ← walkaddr r va
      if pa = 0 then throw .loadseg
      else do
        let m ← readiTo img pa off n
        f m) E Q s := by
  have hmem : PTE2PA (s.leaf r (vpn va)) ∈ s.user c r sz := mem_user_of_lt hv
  have hpg : IsPage c (PTE2PA (s.leaf r (vpn va))) := ho.isPage (subset_add_right hmem)
  have hpos := hpg.pos
  have hoff : va % PGSIZE < PGSIZE := Nat.mod_lt _ (by decide)
  have hmod : (PTE2PA (s.leaf r (vpn va)) + va % PGSIZE) % PGSIZE = va % PGSIZE := by
    rw [Nat.add_mod, hpg.1, Nat.zero_add, Nat.mod_mod, Nat.mod_mod]
  rw [wp_bind]
  refine wp_of_run (walkaddr_user_eq h hop hv) ?_
  rw [if_neg (by omega), wp_bind]
  unfold readiTo
  rw [wp_bind, wp_modify, wp_pure, hmod, Nat.add_sub_cancel]
  obtain ⟨s', hs'⟩ : ∃ s', s' = s.put (PTE2PA (s.leaf r (vpn va)))
    ((s.mem (PTE2PA (s.leaf r (vpn va)))).blit (va % PGSIZE) (img.read off n)) := ⟨_, rfl⟩
  have hw : Wrote s s' (s.user c r sz) := hs' ▸ wrote_put hmem
  rw [← hs']
  rcases Nat.eq_zero_or_pos n with rfl | hn0
  · rw [Image.read_zero] at hs' ⊢
    refine hQ s' hw (fun h0 => absurd h0 (Nat.lt_irrefl 0)) fun a ha => ?_
    have hno : ¬ (va ≤ a ∧ a < va + 0) := by omega
    rw [byte_put ho hv (Nat.zero_le _) hs' ha, if_neg hno]
    split <;> rfl
  · by_cases hle : off + n ≤ img.size
    · have hread := Image.read_of_le hle
      have hlen : (img.read off n).length = n := (Image.length_read (by omega) hn0).mpr hle
      rw [hlen]
      refine hQ s' hw (fun _ => hle) fun a ha => ?_
      rw [byte_put ho hv (by rw [hlen]; exact hn) hs' ha, hread]
      by_cases h1 : va ≤ a
      · rw [if_pos h1]
        by_cases h2 : a < va + n
        · rw [if_pos ⟨h1, h2⟩, List.getElem?_map, List.getElem?_range (by omega)]
          rfl
        · rw [if_neg fun hh => h2 hh.2, List.getElem?_eq_none (by simp; omega)]
          rfl
      · rw [if_neg h1, if_neg fun hh => h1 hh.1]
    · exact hshort _ s' hw hn0 hle fun hlen => hle ((Image.length_read (by omega) hn0).mp hlen)

/-- The file's bytes from `off` on stand at `n` addresses from `va` on, and all other bytes of
    the address space are as they were. -/
def Painted (img : Image) (s s' : Vm) (r sz va off n : Nat) : Prop :=
  ∀ a, vpn a < pages sz → s'.byte r a =
    if va ≤ a ∧ a < va + n then img.data (off + (a - va)) else s.byte r a

theorem Painted.refl (img : Image) (s : Vm) (r sz va off : Nat) :
    Painted img s s r sz va off 0 := by
  intro a _
  rw [if_neg (by omega)]

theorem Painted.trans (h : Painted img s s' r sz va off n)
    (h' : Painted img s' s'' r sz (va + n) (off + n) m) :
    Painted img s s'' r sz va off (n + m) := by
  intro a ha
  rw [h' a ha, h a ha]
  by_cases h1 : va + n ≤ a ∧ a < va + n + m
  · rw [if_pos h1, if_pos (by omega), show off + n + (a - (va + n)) = off + (a - va) by omega]
  · rw [if_neg h1]
    by_cases h2 : va ≤ a ∧ a < va + n
    · rw [if_pos h2, if_pos (by omega)]
    · rw [if_neg h2, if_neg (by omega)]

/-- How a copy from the file ends: all of it is there, or the file is too short. -/
def LoadEnds (img : Image) (s s' : Vm) (r sz va off n : Nat) (res : Int) : Prop :=
  (res = 0 ∧ (0 < n → off + n ≤ img.size) ∧ Painted img s s' r sz va off n) ∨
  (res = -1 ∧ 0 < n ∧ ¬ off + n ≤ img.size)

theorem LoadEnds.after {res : Int} (hp : Painted img s s' r sz va off n)
    (hn : 0 < n → off + n ≤ img.size) (h : LoadEnds img s' s'' r sz (va + n) (off + n) m res) :
    LoadEnds img s s'' r sz va off (n + m) res := by
  rcases h with ⟨h1, h2, h3⟩ | ⟨h1, h2, h3⟩
  · refine .inl ⟨h1, fun hpos => ?_, hp.trans h3⟩
    rcases Nat.eq_zero_or_pos m with rfl | hm
    · exact hn hpos
    · have := h2 hm
      omega
  · exact .inr ⟨h1, by omega, by omega⟩

theorem LoadEnds.short (hn : 0 < n) (h : ¬ off + n ≤ img.size) :
    LoadEnds img s s' r sz va off (n + m) (-1) := .inr ⟨rfl, by omega, by omega⟩

theorem LoadEnds.none : LoadEnds img s s r sz va off 0 0 :=
  .inl ⟨rfl, fun h => absurd h (Nat.lt_irrefl 0), Painted.refl img s r sz va off⟩

theorem loadLoop_of_le {i : Nat} (h : fsz ≤ i) : loadLoop img r va offset fsz n i = pure 0 := by
  cases n with
  | zero => rfl
  | succ n => exact if_neg (by omega)

/-- **The loop of `loadseg`.** The offset does not wrap as long as there is file to read, and
    so the loop is over before its counter could. -/
theorem loadLoop_bytes (img : Image) (offset : Nat) (hle : va + fsz ≤ sz) (hsz : sz < 2 ^ 64) :
    ∀ {n i : Nat} {s : Vm}, Space c s r tf sz → Own c s (s.space c r sz) → Open s r (pages sz) →
    (i < fsz → (va + i) % PGSIZE = 0) → fsz ≤ i + n * PGSIZE → i ≤ PGSIZE + (offset + i) % 2 ^ 32 →
    wp (loadLoop img r va offset fsz n i) E (fun res s' => Wrote s s' (s.user c r sz) ∧
      LoadEnds img s s' r sz (va + i) ((offset + i) % 2 ^ 32) (fsz - i) res) s := by
  intro n
  induction n with
  | zero =>
    intro i s _ _ _ _ hfuel _
    rw [loadLoop_of_le (by omega), show fsz - i = 0 by omega]
    exact ⟨Wrote.refl _ _, LoadEnds.none⟩
  | succ n ih =>
    intro i s h ho hop hal hfuel hwrap
    rcases Nat.lt_or_ge i fsz with hi | hi
    swap
    · rw [loadLoop_of_le hi, show fsz - i = 0 by omega]
      exact ⟨Wrote.refl _ _, LoadEnds.none⟩
    unfold loadLoop
    rw [if_pos hi, add64_of_lt (by omega)]
    have hal := hal hi
    have hpg : PGSIZE = 4096 := rfl
    have hmax : MAXFILE * BSIZE + 3 * PGSIZE < 2 ^ 32 := by decide
    have hsize := img.size_le
    obtain ⟨m, hm⟩ : ∃ m, m = if fsz - i < PGSIZE then fsz - i else PGSIZE := ⟨_, rfl⟩
    have hm0 : 0 < m ∧ m ≤ PGSIZE ∧ m ≤ fsz - i := by
      rw [hm]
      split <;> omega
    dsimp only
    rw [← hm]
    refine wp_load (f := fun r' => if r' ≠ m then pure (-1) else
      loadLoop img r va offset fsz n ((i + PGSIZE) % 2 ^ 32)) h ho hop
      (vpn_lt_pages (by omega)) (by omega) ?_ ?_
    · intro s₁ hw hread hpaint
      have hread := hread hm0.1
      rw [if_neg (by omega), Nat.mod_eq_of_lt (by omega : i + PGSIZE < 2 ^ 32)]
      rcases Nat.lt_or_ge (fsz - i) PGSIZE with hlast | hfull
      · rw [loadLoop_of_le (by omega)]
        rw [if_pos hlast] at hm
        refine ⟨hw, .inl ⟨rfl, fun _ => ?_, ?_⟩⟩
        · rwa [← hm]
        · rwa [← hm]
      · rw [if_neg (by omega)] at hm
        have hnext : (offset + (i + PGSIZE)) % 2 ^ 32 = (offset + i) % 2 ^ 32 + PGSIZE := by
          rw [← Nat.add_assoc, ← Nat.mod_add_mod]
          exact Nat.mod_eq_of_lt (by omega)
        have hnextpg : (va + (i + PGSIZE)) % PGSIZE = 0 := by
          rw [← Nat.add_assoc, Nat.add_mod_right]
          exact hal
        have hb := hw.became h ho
        have hrest := ih (i := i + PGSIZE) hb.space (hb.own' ho) (hw.opened ho hop) (fun _ => hnextpg)
          (by rw [Nat.succ_mul] at hfuel; omega) (by omega)
        refine wp_mono hrest ?_
        rintro res s₂ ⟨hw2, he⟩
        rw [hw.user h ho] at hw2
        refine ⟨hw.trans hw2, ?_⟩
        rw [hnext, ← Nat.add_assoc] at he
        rw [hm] at hpaint hread
        rw [show fsz - i = PGSIZE + (fsz - (i + PGSIZE)) by omega]
        exact he.after hpaint (fun _ => hread)
    · intro m' s₁ hw _ hbig hne
      rw [if_pos hne]
      refine ⟨hw, ?_⟩
      rw [show fsz - i = m + (fsz - i - m) by omega]
      exact LoadEnds.short hm0.1 hbig

/-- **`loadseg`** copies its part of the file, or the file is too short. -/
theorem loadseg_bytes (hle : va + fsz ≤ sz) (hsz : sz < 2 ^ 64) (hoff : offset < 2 ^ 32)
    (h : Space c s r tf sz) (ho : Own c s (s.space c r sz)) (hop : Open s r (pages sz)) :
    wp (loadseg img r va offset fsz) E (fun res s' => Wrote s s' (s.user c r sz) ∧
      LoadEnds img s s' r sz va offset fsz res) s := by
  have hpg : PGSIZE = 4096 := rfl
  have hfuel : fsz ≤ 0 + pages fsz * PGSIZE := by
    rw [Nat.zero_add]
    exact le_pages_mul fsz
  unfold loadseg
  by_cases hal : va % PGSIZE = 0
  · rw [if_neg (fun hne => hne hal)]
    have hloop := loadLoop_bytes (E := E) img offset (n := pages fsz) (i := 0)
      hle hsz h ho hop (fun _ => hal) hfuel (Nat.zero_le _)
    rw [Nat.add_zero, Nat.add_zero, Nat.mod_eq_of_lt hoff] at hloop
    exact hloop
  · rw [if_pos hal]
    have hand : va &&& 0xfff = va % PGSIZE := Nat.and_two_pow_sub_one_eq_mod va 12
    obtain ⟨m, hm⟩ : ∃ m, m = min (PGSIZE - va % PGSIZE) fsz := ⟨_, rfl⟩
    have hm0 : m ≤ PGSIZE - va % PGSIZE ∧ m ≤ fsz := by omega
    have hlt : va % PGSIZE < PGSIZE := Nat.mod_lt _ (by decide)
    have hmax : MAXFILE * BSIZE + 3 * PGSIZE < 2 ^ 32 := by decide
    have hsize := img.size_le
    dsimp only
    rw [hand, ← hm]
    refine wp_load (f := fun r' => if r' ≠ m then pure (-1) else
      if fsz ≤ PGSIZE - va % PGSIZE then pure 0 else
      loadLoop img r va offset fsz (pages fsz) m) h ho hop
      (vpn_lt_pages_of_unaligned (by omega) hal) (by omega) ?_ ?_
    · intro s₁ hw hread hpaint
      rw [if_neg (fun hne => hne rfl)]
      rcases Nat.lt_or_ge (PGSIZE - va % PGSIZE) fsz with hmore | hlast
      · rw [if_neg (by omega)]
        have hmv : m = PGSIZE - va % PGSIZE := by omega
        have hread := hread (by omega)
        have hnext : (offset + m) % 2 ^ 32 = offset + m := Nat.mod_eq_of_lt (by omega)
        have hnextpg : (va + m) % PGSIZE = 0 := by
          have hdm := Nat.div_add_mod va PGSIZE
          rw [show va + m = PGSIZE * (va / PGSIZE + 1) by rw [Nat.mul_succ]; omega]
          exact Nat.mul_mod_right _ _
        have hb := hw.became h ho
        have hrest := loadLoop_bytes (E := E) img offset (n := pages fsz) (i := m)
          hle hsz hb.space (hb.own' ho) (hw.opened ho hop)
          (fun _ => hnextpg) (by omega) (by omega)
        refine wp_mono hrest ?_
        rintro res s₂ ⟨hw2, he⟩
        rw [hw.user h ho] at hw2
        refine ⟨hw.trans hw2, ?_⟩
        rw [hnext] at he
        rw [show fsz = m + (fsz - m) by omega]
        exact he.after hpaint (fun _ => hread)
      · rw [if_pos hlast]
        have hmv : m = fsz := by omega
        rw [← hmv]
        exact ⟨hw, .inl ⟨rfl, hread, hpaint⟩⟩
    · intro m' s₁ hw hpos hbig hne
      rw [if_pos hne]
      refine ⟨hw, ?_⟩
      rw [show fsz = m + (fsz - m) by omega]
      exact LoadEnds.short hpos hbig

end

end ZeptOS.Mem
