import ZeptOS.Mem.Map

/-!
# A page table is a finite map

The abstract side is a partial map from virtual page numbers to a physical page and its
permission bits, with two operations: bind a run of pages, remove a run of pages. The
concrete side is any memory in which page tables were built by `uvmcreate`, `walk`,
`mappages`, `uvmunmap` and `uvmclear`, any number of tables in any order, while other
code takes pages from the same free list.

`Tables` is that system, `Tables.Inv` what all its runs keep: the pages of all tables
and the free list are pairwise distinct, interior entries are pointers and leaf entries
leaves. From there each function's specification is a statement about the map.
-/

namespace ZeptOS.Mem

open Lib Lib.Prog Multiset

variable {n r v : Nat} {s vm : Vm}

/-! ## The abstract map -/

/-- Virtual page numbers to physical page and permission bits. -/
abbrev PMap : Type := Nat → Option (Nat × Nat)

namespace PMap

/-- Bind `k` pages from `v` on to the physical pages from `pa` on. -/
def bind (m : PMap) (v k pa perm : Nat) : PMap := fun u =>
  if v ≤ u ∧ u < v + k then some (pa + (u - v) * PGSIZE, perm) else m u

def remove (m : PMap) (v n : Nat) : PMap := fun u => if v ≤ u ∧ u < v + n then none else m u

/-- The physical address of a virtual one, for user code; 0 where it has none. -/
def addr (m : PMap) (va : Nat) : Nat :=
  match m (vpn va) with
  | some (pa, perm) => if perm &&& PTE_U = 0 then 0 else pa + va % PGSIZE
  | none => 0

end PMap

def entry (w : Nat) : Option (Nat × Nat) :=
  if isValid w then some (PTE2PA w, PTE_FLAGS w) else none

def Vm.map (s : Vm) (r : Nat) : PMap := fun v =>
  if v < MAXVA / PGSIZE then entry (s.leaf r v) else none

theorem Vm.map_of_lt (h : v < MAXVA / PGSIZE) : s.map r v = entry (s.leaf r v) := if_pos h

theorem Vm.map_of_ge (h : ¬ v < MAXVA / PGSIZE) : s.map r v = none := if_neg h

/-! ## The tables of a memory -/

structure Tables where
  vm : Vm
  roots : List Nat

inductive TableOp where
  | kalloc                                      -- a page for something else
  | create
  | walk (r va : Nat) (alloc : Bool)
  | map (r va size pa perm : Nat)
  | unmap (r va npages : Nat) (doFree : Bool)
  | clear (r va : Nat)

namespace Tables

def nodes (t : Tables) : Multiset Nat := (t.roots.map t.vm.nodes).sum

def run {α : Type} (t : Tables) (x : K α) (roots : α → List Nat) : Outcome Tables Panic :=
  match x t.vm with
  | .ok (a, vm) => .next ⟨vm, roots a⟩
  | .error e => .panic e

def step (c : Board) (t : Tables) : TableOp → Outcome Tables Panic
  | .kalloc => t.run kalloc fun _ => t.roots
  | .create => t.run uvmcreate fun r => if r = 0 then t.roots else r :: t.roots
  | .walk r va alloc =>
    if r ∈ t.roots then t.run (Mem.walk r va alloc) fun _ => t.roots else .blocked
  | .map r va size pa perm =>
    if r ∈ t.roots then t.run (mappages r va size pa perm) fun _ => t.roots else .blocked
  | .unmap r va npages doFree =>
    if r ∈ t.roots then t.run (uvmunmap c r va npages doFree) fun _ => t.roots else .blocked
  | .clear r va => if r ∈ t.roots then t.run (uvmclear r va) fun _ => t.roots else .blocked

/-- What the callers owe: leaf permissions, aligned addresses, ranges of mapped or of
    unmapped pages, and to free only pages they own. -/
def Contract (c : Board) (t : Tables) : TableOp → Prop
  | .map r va size pa perm =>
    va % PGSIZE = 0 ∧ size % PGSIZE = 0 ∧ 0 < size ∧ va + size ≤ MAXVA ∧ pa % PGSIZE = 0 ∧
      pa + size ≤ 2 ^ 56 ∧ perm < 1024 ∧ isLeaf perm ∧
      ∀ v, vpn va ≤ v → v < vpn va + size / PGSIZE → t.vm.map r v = none
  | .unmap r va npages doFree =>
    va % PGSIZE = 0 ∧ va + npages * PGSIZE ≤ MAXVA ∧
      (∀ v, vpn va ≤ v → v < vpn va + npages → t.vm.map r v ≠ none) ∧
      (doFree = true → Own c t.vm (t.nodes + t.vm.targets r (vpn va) npages))
  | .walk _ va _ | .clear _ va => va < MAXVA
  | .kalloc | .create => True

/-- The tables and the free list share no page, and every table is well formed. -/
structure Inv (c : Board) (t : Tables) : Prop where
  own : Own c t.vm t.nodes
  wf : ∀ r ∈ t.roots, Wf t.vm r

variable {c : Board} {t : Tables}

theorem nodes_split (hr : r ∈ t.roots) :
    t.nodes = t.vm.nodes r + ((t.roots.erase r).map t.vm.nodes).sum :=
  (List.sum_map_erase t.vm.nodes hr).symm

theorem Inv.of_one (h : Inv c t) (hr : r ∈ t.roots)
    (hother : ∀ q ∈ ((t.roots.erase r).map t.vm.nodes).sum, vm.mem q = t.vm.mem q)
    (hown : Own c vm (vm.nodes r + ((t.roots.erase r).map t.vm.nodes).sum)) (hwf : Wf vm r) :
    Inv c ⟨vm, t.roots⟩ := by
  have hsub : ∀ r' ∈ t.roots.erase r, ∀ q ∈ t.vm.nodes r', vm.mem q = t.vm.mem q := by
    intro r' hr' q hq
    refine hother q (mem_of_le ?_ hq)
    exact List.single_le_sum (fun _ _ => zero_le _) _ (List.mem_map.mpr ⟨r', hr', rfl⟩)
  have hsame : (t.roots.erase r).map vm.nodes = (t.roots.erase r).map t.vm.nodes :=
    List.map_congr_left fun r' hr' => Vm.nodesAt_congr (hsub r' hr')
  refine ⟨?_, fun r' hr' => ?_⟩
  · have := nodes_split (t := ⟨vm, t.roots⟩) hr
    rw [this]
    show Own c vm (vm.nodes r + ((t.roots.erase r).map vm.nodes).sum)
    rw [hsame]
    exact hown
  · by_cases he : r' = r
    · rw [he]
      exact hwf
    · have hr'' : r' ∈ t.roots.erase r := (List.mem_erase_of_ne he).mpr hr'
      exact (h.wf r' hr').congr (hsub r' hr'')

theorem Inv.own_one (h : Inv c t) (hr : r ∈ t.roots) : Own c t.vm (t.vm.nodes r) := by
  have := h.own
  rw [nodes_split hr] at this
  exact this.left

theorem Inv.took (h : Inv c t) (hr : r ∈ t.roots) {new : List Nat} (ht : Took t.vm vm r new)
    (hwf : Wf vm r) : Inv c ⟨vm, t.roots⟩ := by
  have ho := h.own
  rw [nodes_split hr] at ho
  exact h.of_one hr (fun q hq => ht.mem_of_own ho hq) (ht.own ho) hwf

theorem map_eq_none_iff (hv : v < 2 ^ 26) : s.map r v = none ↔ ¬ isValid (s.leaf r v) := by
  rw [Vm.map_of_lt (hv.trans_le (by decide))]
  unfold entry
  split <;> simp_all

variable {va : Nat}

theorem eq_vpn_mul (h : va % PGSIZE = 0) : va = vpn va * PGSIZE :=
  (Nat.div_mul_cancel (Nat.dvd_of_mod_eq_zero h)).symm

theorem vpn_le (h : va % PGSIZE = 0) (hle : va + n * PGSIZE ≤ MAXVA) : vpn va + n ≤ 2 ^ 26 := by
  rw [eq_vpn_mul h, ← Nat.add_mul, show MAXVA = 2 ^ 26 * PGSIZE by decide] at hle
  exact Nat.le_of_mul_le_mul_right hle (by decide)

/-! ## The functions, as they act on the map -/

theorem Inv.mappages (h : Inv c t) (hr : r ∈ t.roots) {size pa perm : Nat}
    (hc : t.Contract c (.map r va size pa perm)) :
    wp (mappages r va size pa perm) (fun _ => False) (fun res vm => Inv c ⟨vm, t.roots⟩ ∧
      ((res = 0 ∧ vm.map r = (t.vm.map r).bind (vpn va) (size / PGSIZE) pa (perm ||| PTE_V)) ∨
        (res = -1 ∧ ∃ k, k < size / PGSIZE ∧
          vm.map r = (t.vm.map r).bind (vpn va) k pa (perm ||| PTE_V)))) t.vm := by
  obtain ⟨hva, hsz, hpos, hmax, hpa, hpmax, hperm, hleaf, hun⟩ := hc
  have hsize : size = size / PGSIZE * PGSIZE :=
    (Nat.div_mul_cancel (Nat.dvd_of_mod_eq_zero hsz)).symm
  have hn : 0 < size / PGSIZE := by
    refine Nat.pos_of_ne_zero fun h0 => ?_
    rw [h0, Nat.zero_mul] at hsize
    omega
  have hvn : vpn va + size / PGSIZE ≤ 2 ^ 26 := vpn_le hva (by rw [← hsize]; exact hmax)
  have hspec := @mappages_spec c t.vm (size / PGSIZE) r (vpn va) pa perm (fun _ => False)
    (h.own_one hr) hn hvn (by rw [← hsize]; exact hpmax)
    hperm (fun u h1 h2 => (map_eq_none_iff (by omega)).mp (hun u h1 h2))
  rw [← eq_vpn_mul hva, ← hsize] at hspec
  refine wp_mono hspec ?_
  rintro res vm ⟨new, k, ht, hb, hres⟩
  have hk : k ≤ size / PGSIZE := by
    rcases hres with ⟨-, hk, -⟩ | ⟨-, hk, -⟩ <;> omega
  have hmap : vm.map r = (t.vm.map r).bind (vpn va) k pa (perm ||| PTE_V) := by
    funext u
    unfold PMap.bind
    by_cases hu : u < MAXVA / PGSIZE
    · have hu26 : u < 2 ^ 26 := hu.trans_le (by decide)
      rw [Vm.map_of_lt hu, Vm.map_of_lt hu, hb u (hu26.trans_le (by decide))]
      split
      · rename_i hin
        -- the page bound lies below `pa + size`
        have hlt : pa + (u - vpn va) * PGSIZE < 2 ^ 62 := by
          have : (u - vpn va) * PGSIZE ≤ size / PGSIZE * PGSIZE :=
            Nat.mul_le_mul_right _ (by omega)
          rw [← hsize] at this
          omega
        have hal : (pa + (u - vpn va) * PGSIZE) % PGSIZE = 0 := by
          rw [Nat.add_mul_mod_self_right]
          exact hpa
        unfold entry
        rw [if_pos (isValid_mkPte hperm), PTE2PA_mkPte hperm hlt hal, PTE_FLAGS_mkPte hperm]
      · rfl
    · have hge : 2 ^ 26 ≤ u := Nat.le_trans (by decide) (Nat.le_of_not_lt hu)
      rw [Vm.map_of_ge hu, Vm.map_of_ge hu, if_neg (by omega)]
  refine ⟨h.took hr ht ((h.wf r hr).took ht hb (by omega) hperm hleaf), ?_⟩
  rcases hres with ⟨h1, h2, -⟩ | ⟨h1, h2, -⟩
  · exact .inl ⟨h1, by rw [hmap, h2]⟩
  · exact .inr ⟨h1, k, h2, hmap⟩

theorem Inv.uvmunmap (h : Inv c t) (hr : r ∈ t.roots) {doFree : Bool}
    (hc : t.Contract c (.unmap r va n doFree)) :
    wp (uvmunmap c r va n doFree) (fun _ => False) (fun _ vm => Inv c ⟨vm, t.roots⟩ ∧
      vm.map r = (t.vm.map r).remove (vpn va) n) t.vm := by
  obtain ⟨hva, hmax, hmap, hfree⟩ := hc
  have hvn : vpn va + n ≤ 2 ^ 26 := vpn_le hva hmax
  have ho : Own c t.vm (t.vm.nodes r + ((t.roots.erase r).map t.vm.nodes).sum +
      freed doFree (t.vm.targets r (vpn va) n)) := by
    rw [← nodes_split hr]
    unfold freed
    split
    · rename_i hd
      exact hfree hd
    · rw [add_zero]
      exact h.own
  have hspec := @uvmunmap_spec c t.vm n r (vpn va) doFree (fun _ => False)
    hvn (ho.mono (add_le_add_left (add_le_add_left (le_add_right _ _) _) _))
    (fun u h1 h2 => by
      have hu : u < 2 ^ 26 := by omega
      have hv : isValid (t.vm.leaf r u) := by
        by_contra hn
        exact hmap u h1 h2 ((map_eq_none_iff hu).mpr hn)
      exact ⟨hv, ((h.wf r hr).leaf u (hu.trans_le (by decide)) hv).1⟩)
  rw [← eq_vpn_mul hva] at hspec
  refine wp_mono hspec ?_
  rintro - vm ⟨hg, hl⟩
  refine ⟨h.of_one hr ?_ (hg.own ho) ((h.wf r hr).gave hg hl), ?_⟩
  · intro q hq
    refine hg.frame q (fun hm => ?_) fun hm => ?_
    · have := ho.mono (B := t.vm.nodes r + ((t.roots.erase r).map t.vm.nodes).sum)
        (add_le_add_left (le_add_right _ _) _)
      exact this.disjoint hm hq
    · exact ho.disjoint (subset_add_right hq) hm
  · funext u
    unfold PMap.remove
    by_cases hu : u < MAXVA / PGSIZE
    · rw [Vm.map_of_lt hu, Vm.map_of_lt hu, hl u (hu.trans_le (by decide))]
      split
      · exact if_neg not_isValid_zero
      · rfl
    · rw [Vm.map_of_ge hu, Vm.map_of_ge hu]
      split <;> rfl

theorem walk_eq (hva : va < MAXVA) : ∃ x, walk r va false s = .ok (x, s) ∧
    s.map r (vpn va) = x.bind fun y => entry (s.pte y.1 y.2) := by
  refine ⟨sv39.slot s.pte 2 r (vpn va), ?_, ?_⟩
  · unfold walk
    rw [if_neg (Nat.not_le_of_lt hva)]
    exact walkFrom_read
  · have hv : vpn va < MAXVA / PGSIZE := Nat.div_lt_of_lt_mul hva
    rw [Vm.map_of_lt hv]
    cases hs : sv39.slot s.pte 2 r (vpn va) with
    | none =>
      rw [show s.leaf r (vpn va) = 0 from Vm.leafAt_of_none hs]
      rfl
    | some x =>
      rw [show s.leaf r (vpn va) = s.pte x.1 x.2 from Vm.leafAt_of_slot hs]
      rfl

theorem walkaddr_eq : walkaddr r va s = .ok ((s.map r).addr va, s) := by
  by_cases hva : va ≥ MAXVA
  · have hv : ¬ vpn va < MAXVA / PGSIZE := Nat.not_lt.mpr (Nat.div_le_div_right hva)
    unfold walkaddr PMap.addr
    rw [if_pos hva, Vm.map_of_ge hv]
    rfl
  · obtain ⟨x, hw, hm⟩ := walk_eq (s := s) (r := r) (Nat.lt_of_not_le hva)
    have hwp : wp (walkaddr r va) (fun _ => False)
        (fun a s' => a = (s.map r).addr va ∧ s' = s) s := by
      unfold walkaddr
      rw [if_neg hva, wp_bind]
      refine wp_of_run hw ?_
      unfold PMap.addr
      cases x with
      | none =>
        rw [hm]
        exact ⟨rfl, rfl⟩
      | some y =>
        rw [hm]
        simp only [wp_bind, wp_loadPte, Option.bind_some]
        unfold entry
        by_cases hv : isValid (s.pte y.1 y.2)
        · rw [if_neg (by simpa using hv), if_pos hv]
          simp only [flags_and_U]
          by_cases hu : s.pte y.1 y.2 &&& PTE_U = 0
          · rw [if_pos hu, if_pos hu]
            exact ⟨rfl, rfl⟩
          · rw [if_neg hu, if_neg hu]
            refine ⟨?_, rfl⟩
            have h1 := PTE2PA_mod (s.pte y.1 y.2)
            have h2 := PTE2PA_lt (s.pte y.1 y.2)
            rw [show 0xfff = 2 ^ 12 - 1 by decide, Nat.and_two_pow_sub_one_eq_mod]
            refine add64_of_lt ?_
            simp only [PGSIZE] at h1
            omega
        · rw [if_pos hv, if_neg hv]
          exact ⟨rfl, rfl⟩
    obtain ⟨a, s', he, ha, hs'⟩ := run_of_wp hwp
    rw [ha, hs'] at he
    exact he

/-! ## Whole runs -/

def Start (c : Board) (t : Tables) : Prop := t.roots = [] ∧ Own c t.vm 0

variable {t' : Tables}

theorem run_eq {α : Type} {x : K α} {roots : α → List Nat}
    (h : t.run x roots = .next t') {Q : α → Vm → Prop} {E : Panic → Prop} (hw : wp x E Q t.vm) :
    ∃ a vm, t' = ⟨vm, roots a⟩ ∧ Q a vm := by
  unfold run at h
  unfold wp at hw
  split at h
  · rename_i a vm he
    rw [he] at hw
    cases h
    exact ⟨a, vm, rfl, hw⟩
  · cases h

theorem Inv.popped (h : Inv c t) {p : Nat} {rest : List Nat} (hf : t.vm.freelist = p :: rest)
    (hf' : vm.freelist = rest) (hm : ∀ q, q ≠ p → vm.mem q = t.vm.mem q) :
    Inv c ⟨vm, t.roots⟩ ∧ Own c vm ({p} + t.nodes) ∧ (⟨vm, t.roots⟩ : Tables).nodes = t.nodes := by
  have hnot : p ∉ t.nodes := fun hp => h.own.not_free hp (hf ▸ List.mem_cons_self)
  have hsub : ∀ r ∈ t.roots, ∀ q ∈ t.vm.nodes r, vm.mem q = t.vm.mem q := by
    intro r hr q hq
    refine hm q ?_
    rintro rfl
    refine hnot (mem_of_le ?_ hq)
    exact List.single_le_sum (fun _ _ => zero_le _) _ (List.mem_map.mpr ⟨r, hr, rfl⟩)
  have hnodes : (⟨vm, t.roots⟩ : Tables).nodes = t.nodes := by
    unfold nodes
    rw [show t.roots.map vm.nodes = t.roots.map t.vm.nodes from
      List.map_congr_left fun r hr => Vm.nodesAt_congr (hsub r hr)]
  have hown : Own c vm ({p} + t.nodes) := by
    refine h.own.of_eq ?_
    rw [hf, hf', ← cons_coe, ← singleton_add]
    abel
  refine ⟨⟨?_, fun r hr => (h.wf r hr).congr (hsub r hr)⟩, hown, hnodes⟩
  rw [hnodes]
  exact hown.mono (add_le_add_left (le_add_left _ _) _)

theorem Inv.oom (h : Inv c t) : Inv c ⟨{ t.vm with oom := true }, t.roots⟩ :=
  ⟨h.own.of_eq rfl, fun r hr => (h.wf r hr).congr fun _ _ => rfl⟩

theorem Inv.kalloc (h : Inv c t) (hs : t.step c .kalloc = .next t') : Inv c t' := by
  cases hf : t.vm.freelist with
  | nil =>
    obtain ⟨a, vm, rfl, -, hvm⟩ := run_eq (E := fun _ => False)
      (Q := fun a vm => a = 0 ∧ vm = { t.vm with oom := true }) hs
      (by rw [wp_kalloc_nil hf]; exact ⟨rfl, rfl⟩)
    rw [hvm]
    exact h.oom
  | cons p rest =>
    obtain ⟨a, vm, rfl, hf', hm⟩ := run_eq (E := fun _ => False)
      (Q := fun _ vm => vm.freelist = rest ∧ ∀ q, q ≠ p → vm.mem q = t.vm.mem q) hs
      (by rw [wp_kalloc_cons hf]; exact ⟨rfl, fun q hq => Vm.take_mem_of_ne hq⟩)
    exact (h.popped hf hf' hm).1

theorem Inv.create (h : Inv c t) (hs : t.step c .create = .next t') : Inv c t' := by
  cases hf : t.vm.freelist with
  | nil =>
    obtain ⟨a, vm, rfl, rfl, rfl⟩ := run_eq (E := fun _ => False)
      (Q := fun a vm => a = 0 ∧ vm = { t.vm with oom := true }) hs
      (by
        unfold uvmcreate
        rw [wp_bind, wp_kalloc_nil hf, if_pos rfl]
        exact ⟨rfl, rfl⟩)
    exact h.oom
  | cons p rest =>
    have hpg : IsPage c p := h.own.free_isPage (hf ▸ List.mem_cons_self)
    obtain ⟨a, vm, rfl, rfl, hf', hm, hz⟩ := run_eq (E := fun _ => False)
      (Q := fun a vm => a = p ∧ vm.freelist = rest ∧ (∀ q, q ≠ p → vm.mem q = t.vm.mem q) ∧
        vm.mem p = Bytes.fill 0) hs
      (by
        unfold uvmcreate
        rw [wp_bind, wp_kalloc_cons hf, if_neg hpg.pos, wp_bind, wp_memset, wp_pure]
        refine ⟨rfl, rfl, fun q hq => ?_, Vm.put_mem_self⟩
        rw [Vm.put_mem_of_ne hq, Vm.take_mem_of_ne hq])
    obtain ⟨hinv, hown, hnodes⟩ := h.popped hf hf' hm
    rw [if_neg hpg.pos]
    have hroot : vm.nodes a = {a} := Radix.nodes_of_empty fun i _ => Vm.child_of_zero hz
    refine ⟨?_, fun r hr => ?_⟩
    · have hcons : (⟨vm, a :: t.roots⟩ : Tables).nodes = {a} + t.nodes := by
        rw [← hnodes, ← hroot]
        rfl
      rw [hcons]
      exact hown
    · rcases List.mem_cons.mp hr with rfl | hr
      · exact wf_of_zero hz
      · exact hinv.wf r hr

theorem Inv.walk (h : Inv c t) (hr : r ∈ t.roots) {alloc : Bool} (hva : va < MAXVA) :
    wp (Mem.walk r va alloc) (fun _ => False) (fun _ vm => Inv c ⟨vm, t.roots⟩) t.vm := by
  cases alloc with
  | false =>
    rw [wp_walk_read hva]
    exact h
  | true =>
    refine wp_mono (wp_walk_alloc hva (h.own_one hr)) ?_
    rintro res vm ⟨new, hw⟩
    have ht : Took t.vm vm r new := ⟨hw.free, hw.nodes, hw.frame, hw.inner⟩
    exact h.took hr ht ((h.wf r hr).change ht.inner fun u _ => .inl (hw.leaf u))

theorem Inv.uvmclear (h : Inv c t) (hr : r ∈ t.roots) (hva : va < MAXVA) :
    wp (uvmclear r va) (fun _ => True) (fun _ vm => Inv c ⟨vm, t.roots⟩) t.vm := by
  have hv26 : vpn va < 2 ^ 26 := Nat.div_lt_of_lt_mul (Nat.lt_of_lt_of_eq hva (by decide))
  have hv3 : vpn va < 512 ^ 3 := hv26.trans_le (by decide)
  have hn : (t.vm.nodes r).Nodup := (nodup_add.mp (h.own_one hr).nodup).1
  unfold Mem.uvmclear
  rw [wp_bind, wp_walk_read hva]
  cases hs : sv39.slot t.vm.pte 2 r (vpn va) with
  | none => exact trivial
  | some x =>
    obtain ⟨q, i⟩ := x
    simp only [wp_bind, wp_loadPte, wp_storePte]
    have hpte : t.vm.pte q i = t.vm.leaf r (vpn va) := (Vm.leafAt_of_slot hs).symm
    obtain ⟨h1, h2, h3⟩ := setLeaf (w := t.vm.pte q i &&& (2 ^ 64 - 1 - PTE_U)) hn hv3 hs
    have ht : Took t.vm (t.vm.setPte q i (t.vm.pte q i &&& (2 ^ 64 - 1 - PTE_U))) r [] := by
      refine ⟨rfl, by rw [h1]; simp, fun q' hq' _ => Vm.setPte_mem_of_ne ?_, h2⟩
      rintro rfl
      exact hq' (Radix.slot_mem fan_pos hs).1
    refine h.took hr ht ((h.wf r hr).clear ht.inner hv26 fun u hu => ?_)
    rw [h3 u hu, hpte, Nat.mod_eq_of_lt (Nat.and_le_left.trans_lt Vm.leaf_lt)]

theorem Inv.step (h : Inv c t) {a : TableOp} (hc : t.Contract c a)
    (hs : t.step c a = .next t') : Inv c t' := by
  cases a with
  | kalloc => exact h.kalloc hs
  | create => exact h.create hs
  | walk r va alloc =>
    simp only [Tables.step] at hs
    split at hs
    · rename_i hr
      obtain ⟨_, vm, rfl, hi⟩ := run_eq hs (h.walk hr hc)
      exact hi
    · cases hs
  | map r va size pa perm =>
    simp only [Tables.step] at hs
    split at hs
    · rename_i hr
      obtain ⟨_, vm, rfl, hi, -⟩ := run_eq hs (h.mappages hr hc)
      exact hi
    · cases hs
  | unmap r va n doFree =>
    simp only [Tables.step] at hs
    split at hs
    · rename_i hr
      obtain ⟨_, vm, rfl, hi, -⟩ := run_eq hs (h.uvmunmap hr hc)
      exact hi
    · cases hs
  | clear r va =>
    simp only [Tables.step] at hs
    split at hs
    · rename_i hr
      obtain ⟨_, vm, rfl, hi⟩ := run_eq hs (h.uvmclear hr hc)
      exact hi
    · cases hs

theorem inv_of_reach (hreach : Reach (Start c) (step c) (Contract c) t) : Inv c t := by
  refine Reach.invariant (I := Inv c) ?_ (fun s a s' hi hc hs => hi.step hc hs) hreach
  rintro t ⟨hroots, hown⟩
  refine ⟨?_, ?_⟩
  · unfold nodes
    rw [hroots]
    exact hown
  · rw [hroots]
    intro r hr
    simp at hr

/-- **The page table refines the map.** In every memory the functions can reach, for
    every table in it: `mappages` on unmapped pages returns 0 and has bound exactly
    those, or -1 and has bound a prefix of them; `uvmunmap` on mapped pages removes
    exactly those; `walk` without `alloc` answers the entry the map gives, and
    `walkaddr` its physical address, or 0. None of them panics, but for `walk` beyond
    `MAXVA`. -/
theorem page_table_refines_map (hreach : Reach (Start c) (step c) (Contract c) t)
    (hr : r ∈ t.roots) : (∀ va size pa perm, t.Contract c (.map r va size pa perm) →
      ∃ res vm, mappages r va size pa perm t.vm = .ok (res, vm) ∧
        ((res = 0 ∧ vm.map r = (t.vm.map r).bind (vpn va) (size / PGSIZE) pa (perm ||| PTE_V)) ∨
          (res = -1 ∧ ∃ k, k < size / PGSIZE ∧
            vm.map r = (t.vm.map r).bind (vpn va) k pa (perm ||| PTE_V)))) ∧
    (∀ va n doFree, t.Contract c (.unmap r va n doFree) →
      ∃ vm, uvmunmap c r va n doFree t.vm = .ok ((), vm) ∧
        vm.map r = (t.vm.map r).remove (vpn va) n) ∧
    (∀ va, va < MAXVA → ∃ x, walk r va false t.vm = .ok (x, t.vm) ∧
      t.vm.map r (vpn va) = x.bind fun y => entry (t.vm.pte y.1 y.2)) ∧
    (∀ va, MAXVA ≤ va → walk r va false t.vm = .error .walk) ∧
    ∀ va, walkaddr r va t.vm = .ok ((t.vm.map r).addr va, t.vm) := by
  have hinv := inv_of_reach hreach
  refine ⟨?_, ?_, fun va hva => walk_eq hva, fun va hva => ?_, fun va => walkaddr_eq⟩
  · intro va size pa perm hc
    obtain ⟨res, vm, he, -, h⟩ := run_of_wp (hinv.mappages hr hc)
    exact ⟨res, vm, he, h⟩
  · intro va n doFree hc
    obtain ⟨_, vm, he, -, h⟩ := run_of_wp (hinv.uvmunmap hr hc)
    exact ⟨vm, he, h⟩
  · unfold walk
    rw [if_pos hva]
    rfl

def freshTable : Tables where
  vm := (((⟨fun _ => Bytes.fill 0, [], false⟩ : Vm).take 0x80400000
    [0x80401000, 0x80402000, 0x80403000])).put 0x80400000 (Bytes.fill 0)
  roots := [0x80400000]

theorem page_table_refines_map_freshTable :
    Reach (Start (.virt true true)) (step (.virt true true)) (Contract (.virt true true)) freshTable ∧
      ∃ res vm, mappages 0x80400000 0 PGSIZE 0x80500000 (PTE_R ||| PTE_U) freshTable.vm =
        .ok (res, vm) ∧ ((res = 0 ∧ vm.map 0x80400000 =
            (freshTable.vm.map 0x80400000).bind 0 1 0x80500000 (PTE_R ||| PTE_U ||| PTE_V)) ∨
          (res = -1 ∧ ∃ k, k < 1 ∧ vm.map 0x80400000 =
            (freshTable.vm.map 0x80400000).bind 0 k 0x80500000 (PTE_R ||| PTE_U ||| PTE_V))) := by
  have hstart : Start (.virt true true)
      ⟨⟨fun _ => Bytes.fill 0, [0x80400000, 0x80401000, 0x80402000, 0x80403000], false⟩, []⟩ := by
    refine ⟨rfl, ⟨?_, ?_⟩⟩
    · rw [zero_add, coe_nodup]
      decide
    · intro q hq
      rw [zero_add, mem_coe] at hq
      simp only [List.mem_cons, List.not_mem_nil, or_false] at hq
      rcases hq with rfl | rfl | rfl | rfl <;> exact ⟨by decide, by decide, by decide⟩
  have hreach : Reach (Start (.virt true true)) (step (.virt true true))
      (Contract (.virt true true)) freshTable := by
    refine .step (.start hstart) (a := .create) trivial ?_
    rfl
  have hroot : 0x80400000 ∈ freshTable.roots := List.mem_singleton_self _
  refine ⟨hreach, (page_table_refines_map hreach hroot).1 0 PGSIZE 0x80500000 (PTE_R ||| PTE_U) ?_⟩
  refine ⟨by decide, by decide, by decide, by decide, by decide, by decide, by decide, by decide, ?_⟩
  intro v _ hv
  have hz : freshTable.vm.mem 0x80400000 = Bytes.fill 0 := Vm.put_mem_self
  refine (map_eq_none_iff (hv.trans (by decide))).mpr ?_
  rw [show freshTable.vm.leaf 0x80400000 v = 0 from Vm.leafAt_of_zero hz]
  exact not_isValid_zero

end Tables
end ZeptOS.Mem
