import ZeptOS.Mem.ShadowStack

/-!
# The arguments of a program

`exec` pushes the argument strings on the new stack, each rounded to 16 bytes, and the
array of pointers to them below. All of it has to fit the one stack page, so what happens
is arithmetic of depths below the top of the page: string `j` starts at the sum of the
rounded lengths of the strings up to it (`depth`), and the array at that of all strings
and its own. The strings fit iff that last sum is at most a page (`Fits`), and then the
stack page is the old one with the strings and the array blitted in (`stacked`).
-/

namespace ZeptOS.Mem

open Lib Lib.Prog Function

variable {j r w pt sz tf : Nat} {argv : List (List UInt8)} {bs : List UInt8} {b : UInt8} {pg : Page}
  {c : Board} {vm₁ vm₂ : Vm} {E : Panic → Prop} {img : Image} {A : Multiset Nat} {prog : Loaded}

/-! ## Depths -/

def align16 (n : Nat) : Nat := (n + 15) / 16 * 16

theorem le_align16 (n : Nat) : n ≤ align16 n := by
  unfold align16
  omega

theorem align16_mod (n : Nat) : align16 n % 16 = 0 := Nat.mul_mod_left _ _

def depth : List (List UInt8) → Nat
  | [] => 0
  | a :: args => align16 (a.length + 1) + depth args

/-- **What the stack page must hold**: the strings, and the array with its null pointer. -/
def Fits (argv : List (List UInt8)) : Prop :=
  depth argv + align16 ((argv.length + 1) * 8) ≤ PGSIZE

instance (argv : List (List UInt8)) : Decidable (Fits argv) := inferInstanceAs (Decidable (_ ≤ _))

/-- Where the strings start, pushed from depth `d` on below `sz`. -/
def pointers (sz d : Nat) : List (List UInt8) → List Nat
  | [] => []
  | a :: args => (sz - (d + align16 (a.length + 1))) :: pointers sz (d + align16 (a.length + 1)) args

/-- The stack page after the strings were pushed from depth `d` on. -/
def stacked (pg : Page) (d : Nat) : List (List UInt8) → Page
  | [] => pg
  | a :: args =>
    stacked (pg.blit (PGSIZE - (d + align16 (a.length + 1))) (a ++ [0]))
      (d + align16 (a.length + 1)) args

theorem depth_mod (args : List (List UInt8)) : depth args % 16 = 0 := by
  induction args with
  | nil => rfl
  | cons a args ih =>
    have := align16_mod (a.length + 1)
    unfold depth
    omega

theorem depth_append (as bs : List (List UInt8)) : depth (as ++ bs) = depth as + depth bs := by
  induction as with
  | nil => exact (Nat.zero_add _).symm
  | cons a as ih =>
    show align16 (a.length + 1) + depth (as ++ bs) = align16 (a.length + 1) + depth as + depth bs
    rw [ih, Nat.add_assoc]

theorem depth_take_le (args : List (List UInt8)) (j : Nat) : depth (args.take j) ≤ depth args := by
  have h := depth_append (args.take j) (args.drop j)
  rw [List.take_append_drop] at h
  omega

theorem depth_take_succ {args : List (List UInt8)} (hj : j < args.length) :
    depth (args.take (j + 1)) = depth (args.take j) + align16 (args[j].length + 1) := by
  rw [List.take_succ_eq_append_getElem hj, depth_append]
  rfl

theorem length_pointers (sz : Nat) : ∀ (d : Nat) (args : List (List UInt8)),
    (pointers sz d args).length = args.length := by
  intro d args
  induction args generalizing d with
  | nil => rfl
  | cons a args ih => exact congrArg (· + 1) (ih _)

theorem pointers_getElem : ∀ {d : Nat} {args : List (List UInt8)} {j : Nat}
    (_ : j < args.length), (pointers sz d args)[j]? = some (sz - (d + depth (args.take (j + 1)))) := by
  intro d args
  induction args generalizing d with
  | nil => exact fun hj => absurd hj (Nat.not_lt_zero _)
  | cons a args ih =>
    intro j hj
    cases j with
    | zero => rfl
    | succ j =>
      refine (ih (Nat.lt_of_succ_lt_succ hj)).trans ?_
      rw [List.take_succ_cons]
      show some (sz - (d + align16 (a.length + 1) + _)) = some (sz - (d + (align16 (a.length + 1) + _)))
      rw [Nat.add_assoc]

theorem pushed_eq {d n : Nat} (h16 : sz % 16 = 0) (hd : d % 16 = 0) (hn : d + n ≤ sz)
    (hsz : sz < 2 ^ 64) : pushed (sz - d) n = sz - (d + align16 n) := by
  have hmod : (sz - d + (2 ^ 64 - n % 2 ^ 64)) % 2 ^ 64 = sz - d - n := by
    rw [Nat.mod_eq_of_lt (by omega : n < 2 ^ 64)]
    omega
  unfold pushed align16
  rw [hmod]
  dsimp only
  omega

variable {o : Nat}

theorem blit_above {d n : Nat} (hbs : bs.length ≤ align16 n) (hd : d + align16 n ≤ PGSIZE)
    (ho : PGSIZE - d ≤ o) : pg.blit (PGSIZE - (d + align16 n)) bs o = pg o := by
  unfold Bytes.blit
  split
  · rw [List.getElem?_eq_none (by omega)]
    rfl
  · rfl

theorem stacked_above : ∀ {pg : Page} {d : Nat} {args : List (List UInt8)},
    d + depth args ≤ PGSIZE → PGSIZE - d ≤ o → stacked pg d args o = pg o := by
  intro pg d args
  induction args generalizing pg d with
  | nil => exact fun _ _ => rfl
  | cons a args ih =>
    intro hd ho
    have hd' : d + (align16 (a.length + 1) + depth args) ≤ PGSIZE := hd
    refine (ih (by omega) (by omega)).trans (blit_above ?_ (by omega) ho)
    rw [List.length_append, List.length_singleton]
    exact le_align16 _

variable {k : Nat}

theorem blit_at (h : bs[k]? = some b) : pg.blit o bs (o + k) = b := by
  unfold Bytes.blit
  rw [if_pos (Nat.le_add_right _ _), Nat.add_sub_cancel_left, h]
  rfl

theorem stacked_string : ∀ {pg : Page} {d : Nat} {args : List (List UInt8)} {j k : Nat} {b : UInt8}
    (hj : j < args.length), d + depth args ≤ PGSIZE → (args[j] ++ [0])[k]? = some b →
    stacked pg d args (PGSIZE - (d + depth (args.take (j + 1))) + k) = b := by
  intro pg d args
  induction args generalizing pg d with
  | nil => exact fun hj => absurd hj (Nat.not_lt_zero _)
  | cons a args ih =>
    intro j k b hj hd hk
    have hd' : d + (align16 (a.length + 1) + depth args) ≤ PGSIZE := hd
    cases j with
    | zero =>
      have h1 : depth ((a :: args).take 1) = align16 (a.length + 1) := by
        rw [List.take_succ_cons, List.take_zero]
        exact Nat.add_zero _
      rw [h1]
      unfold stacked
      exact (stacked_above (by omega) (by omega)).trans (blit_at hk)
    | succ j =>
      have h1 : depth ((a :: args).take (j + 1 + 1)) =
          align16 (a.length + 1) + depth (args.take (j + 1)) := by
        rw [List.take_succ_cons]
        rfl
      rw [h1, ← Nat.add_assoc]
      exact ih (Nat.lt_of_succ_lt_succ hj) (by omega) hk

/-! ## The stack page -/

section
variable {s s' : Vm} {pa va : Nat}

theorem StackTop.congr (h : StackTop s r sz pa) (hl : ∀ u, s'.leaf r u = s.leaf r u) :
    StackTop s' r sz pa :=
  ⟨h.aligned, h.room, h.le, by rw [hl, h.page], by rw [hl]; exact h.valid,
    by rw [hl]; exact h.user, by rw [hl]; exact h.write⟩

theorem StackTop.vpn_eq (h : StackTop s r sz pa) (h1 : sz - PGSIZE ≤ va) (h2 : va < sz) :
    vpn va = sz / PGSIZE - 1 := by
  have hal : sz % 4096 = 0 := h.aligned
  have hroom : 8192 ≤ sz := h.room
  have h1 : sz - 4096 ≤ va := h1
  show va / 4096 = sz / 4096 - 1
  omega

theorem StackTop.writable (h : StackTop s r sz pa) (h1 : sz - PGSIZE ≤ va) (h2 : va < sz) :
    s.writable r va := by
  unfold Vm.writable
  rw [h.vpn_eq h1 h2]
  exact ⟨h2.trans_le h.le, h.valid, h.user, h.write⟩

theorem StackTop.offset (h : StackTop s r sz pa) (h1 : sz - PGSIZE ≤ va) (h2 : va < sz) :
    va % PGSIZE = va - (sz - PGSIZE) := by
  have hal : sz % 4096 = 0 := h.aligned
  have hroom : 8192 ≤ sz := h.room
  have h1 : sz - 4096 ≤ va := h1
  show va % 4096 = va - (sz - 4096)
  omega

theorem StackTop.byte_eq (h : StackTop s r sz pa) (ho : o < PGSIZE) :
    s.byte r (sz - PGSIZE + o) = s.mem pa o := by
  have := h.room
  have h1 : sz - PGSIZE ≤ sz - PGSIZE + o := Nat.le_add_right _ _
  have h2 : sz - PGSIZE + o < sz := by omega
  unfold Vm.byte Vm.phys
  rw [h.vpn_eq h1 h2, h.page, h.offset h1 h2, Nat.add_sub_cancel_left]

theorem StackTop.mem_user (h : StackTop s r sz pa) : pa ∈ s.user c r sz := by
  rw [← h.page]
  refine mem_user_of_lt ?_
  have hroom : 8192 ≤ sz := h.room
  show sz / 4096 - 1 < (sz + 4095) / 4096
  omega

theorem StackTop.copyout (h : StackTop s r sz pa) (hs : Space c s r tf sz)
    (ho : Own c s (s.space c r sz)) {src : List UInt8} (hva : sz - PGSIZE ≤ va)
    (hle : va + src.length ≤ sz) :
    copyout r va src s = .ok (0, s.put pa ((s.mem pa).blit (va - (sz - PGSIZE)) src)) := by
  have hsz : sz ≤ MAXVA := h.le
  have hmax : MAXVA < 2 ^ 64 := by decide
  have hroom := h.room
  have hal := h.aligned
  rcases Nat.eq_zero_or_pos src.length with h0 | hpos
  · obtain rfl : src = [] := List.length_eq_zero_iff.mp h0
    rw [Bytes.blit_nil]
    unfold Vm.put
    rw [update_eq_self]
    rfl
  have hva64 : va < 2 ^ 64 := by omega
  have hpiece : pieceLen va src.length = src.length := by
    refine Nat.min_eq_right ?_
    rw [h.offset hva (by omega)]
    omega
  have hall : ∀ a ∈ addrs va src.length, s.writable r a := by
    intro a ha
    rw [← hpiece] at ha
    exact (writable_congr (vpn_of_mem_piece hva64 ha)).mpr (h.writable hva (by omega))
  have hstretch : stretch (s.writable r) va src.length = addrs va src.length :=
    List.takeWhile_eq_self_iff.mpr fun a ha => decide_eq_true (hall a ha)
  rw [copyout_eq hva64 (hs.apart ho va src.length), if_pos hall, hstretch]
  have hp := pokes_piece (s := s) (r := r) hva64 hpiece.symm
  rw [hpiece, PGROUNDDOWN_sub hva64, h.vpn_eq hva (by omega), h.page, h.offset hva (by omega)] at hp
  rw [hp]

theorem StackTop.put (h : StackTop s r sz pa) (hs : Space c s r tf sz)
    (ho : Own c s (s.space c r sz)) (pg : Page) :
    StackTop (s.put pa pg) r sz pa ∧ Space c (s.put pa pg) r tf sz ∧
      Own c (s.put pa pg) ((s.put pa pg).space c r sz) := by
  have hw : Wrote s (s.put pa pg) (s.user c r sz) := wrote_put h.mem_user
  have hb := hw.became hs ho
  exact ⟨h.congr (hw.leaf ho), hb.space, hb.own' ho⟩

theorem put_put {pg' : Page} : (s.put pa pg).put pa pg' = s.put pa pg' := by
  unfold Vm.put
  dsimp only
  rw [update_idem]

theorem put_self : s.put pa (s.mem pa) = s := by
  unfold Vm.put
  rw [update_eq_self]

/-! ## Pushing -/

/-- **The strings**: they are on the stack, or they do not fit. -/
theorem pushArgs_layout : ∀ {args : List (List UInt8)} {d : Nat} {ustack : List Nat} {s : Vm},
    StackTop s r sz pa → Space c s r tf sz → Own c s (s.space c r sz) → d % 16 = 0 → d ≤ PGSIZE →
    (∀ a ∈ args, a.length < PGSIZE) → ustack.length + args.length ≤ MAXARG →
    wp (pushArgs r (sz - PGSIZE) args (sz - d) ustack) E (fun res s' =>
      if d + depth args ≤ PGSIZE then
        res = some (sz - (d + depth args), ustack ++ pointers sz d args) ∧
          s' = s.put pa (stacked (s.mem pa) d args) else res = none) s := by
  intro args
  induction args with
  | nil =>
    intro d ustack s ht hs ho hd hle _ _
    show if d + 0 ≤ PGSIZE then _ else _
    rw [if_pos (by omega)]
    refine ⟨?_, put_self.symm⟩
    unfold pointers
    rw [List.append_nil]
    rfl
  | cons a args ih =>
    intro d ustack s ht hs ho hd hle hlen hmax
    have hroom := ht.room
    have hal : sz % 4096 = 0 := ht.aligned
    have ha : a.length < PGSIZE := hlen a List.mem_cons_self
    have hsz : sz < 2 ^ 64 := ht.le.trans_lt (by decide)
    have hpush : pushed (sz - d) (a.length + 1) = sz - (d + align16 (a.length + 1)) :=
      pushed_eq (by omega) hd (by have := ht.room; omega) hsz
    have h16 := align16_mod (a.length + 1)
    rw [List.length_cons] at hmax
    have hdep : d + depth (a :: args) = d + align16 (a.length + 1) + depth args :=
      (Nat.add_assoc _ _ _).symm
    rcases Nat.lt_or_ge PGSIZE (d + align16 (a.length + 1)) with hfit | hfit
    · unfold pushArgs
      rw [if_neg (by omega)]
      dsimp only
      rw [hpush, if_pos (by omega)]
      show if d + (align16 (a.length + 1) + depth args) ≤ PGSIZE then _ else _
      rw [if_neg (by omega)]
    · unfold pushArgs
      rw [if_neg (by omega)]
      dsimp only
      rw [hpush, if_neg (by omega)]
      have hend : sz - (d + align16 (a.length + 1)) + (a ++ [0]).length ≤ sz := by
        have := le_align16 (a.length + 1)
        rw [List.length_append, List.length_singleton]
        omega
      have hcopy := ht.copyout hs ho (by omega) hend
      rw [wp_bind]
      refine wp_of_run hcopy ?_
      rw [if_neg (by decide)]
      obtain ⟨ht', hs', ho'⟩ := ht.put hs ho ((s.mem pa).blit
        (sz - (d + align16 (a.length + 1)) - (sz - PGSIZE)) (a ++ [0]))
      refine wp_mono (ih ht' hs' ho' (by omega) hfit (fun b hb => hlen b (List.mem_cons_of_mem _ hb))
        (by rw [List.length_append, List.length_singleton]; omega)) ?_
      intro res s' hres
      rw [← hdep, put_put, Vm.put_mem_self, List.append_assoc,
        show sz - (d + align16 (a.length + 1)) - (sz - PGSIZE) =
          PGSIZE - (d + align16 (a.length + 1)) by omega] at hres
      exact hres

/-- The array with its null pointer, in the stack page below the strings. -/
def argStack (pg : Page) (sz : Nat) (argv : List (List UInt8)) : Page :=
  (stacked pg 0 argv).blit (PGSIZE - (depth argv + align16 ((argv.length + 1) * 8)))
    (wordBytes (pointers sz 0 argv ++ [0]))

theorem length_wordBytes (ws : List Nat) : (wordBytes ws).length = ws.length * 8 := by
  induction ws with
  | nil => rfl
  | cons w ws ih =>
    unfold wordBytes at ih ⊢
    rw [List.flatMap_cons, List.length_append, ih, List.length_map, List.length_range,
      List.length_cons]
    omega

/-- **The arguments** are on the stack, or they do not fit. -/
theorem pushAll_layout (ht : StackTop s r sz pa) (hs : Space c s r tf sz)
    (ho : Own c s (s.space c r sz)) (hargc : argv.length < MAXARG)
    (hlen : ∀ a ∈ argv, a.length < PGSIZE) : wp (pushAll r sz argv) E (fun res s' =>
      if Fits argv then
        res = .inr ⟨sz, sz - (depth argv + align16 ((argv.length + 1) * 8)), argv.length⟩ ∧
          s' = s.put pa (argStack (s.mem pa) sz argv) else res = .inl sz) s := by
  have hal : sz % 4096 = 0 := ht.aligned
  have hroom := ht.room
  have hmax : argv.length < 32 := hargc
  have hsz : sz < 2 ^ 64 := ht.le.trans_lt (by decide)
  have hargs : wp (pushArgs r (sz - PGSIZE) argv (sz - 0) []) E _ s :=
    pushArgs_layout ht hs ho (Nat.zero_mod 16) (Nat.zero_le PGSIZE) hlen
      (by rw [List.length_nil]; omega)
  rw [Nat.zero_add, Nat.sub_zero, List.nil_append] at hargs
  have hpg : PGSIZE = 4096 := rfl
  have hpush : depth argv ≤ PGSIZE → pushed (sz - depth argv) ((argv.length + 1) * 8) =
      sz - (depth argv + align16 ((argv.length + 1) * 8)) := fun h =>
    pushed_eq (by omega) (depth_mod argv) (by omega) hsz
  have hal16 : align16 ((argv.length + 1) * 8) ≤ PGSIZE := by
    unfold align16
    omega
  by_cases hfit : Fits argv
  · have hle : depth argv + align16 ((argv.length + 1) * 8) ≤ PGSIZE := hfit
    simp only [if_pos hfit]
    unfold pushAll
    refine wp_call hargs ?_
    intro res s₁ hres
    rw [if_pos (by omega)] at hres
    obtain ⟨rfl, rfl⟩ := hres
    dsimp only
    unfold pushArgv
    rw [length_pointers, hpush (by omega), if_neg (by omega)]
    obtain ⟨ht', hs', ho'⟩ := ht.put hs ho (stacked (s.mem pa) 0 argv)
    have hend : sz - (depth argv + align16 ((argv.length + 1) * 8)) +
        (wordBytes (pointers sz 0 argv ++ [0])).length ≤ sz := by
      have := le_align16 ((argv.length + 1) * 8)
      rw [length_wordBytes, List.length_append, length_pointers, List.length_singleton]
      omega
    have hcopy := ht'.copyout hs' ho' (by omega) hend
    rw [wp_bind]
    refine wp_of_run hcopy ?_
    rw [if_neg (by decide)]
    refine ⟨rfl, ?_⟩
    rw [put_put, Vm.put_mem_self,
      show sz - (depth argv + align16 ((argv.length + 1) * 8)) - (sz - PGSIZE) =
        PGSIZE - (depth argv + align16 ((argv.length + 1) * 8)) by omega]
    rfl
  · have hno : ¬ depth argv + align16 ((argv.length + 1) * 8) ≤ PGSIZE := hfit
    simp only [if_neg hfit]
    unfold pushAll
    refine wp_call hargs ?_
    intro res s₁ hres
    split at hres
    · obtain ⟨rfl, rfl⟩ := hres
      dsimp only
      unfold pushArgv
      rw [length_pointers, hpush (by assumption), if_pos (by omega)]
      rfl
    · subst hres
      rfl

end

/-! ## What the program finds -/

theorem wordBytes_getElem (hk : k < 8) : ∀ {ws : List Nat} {j : Nat}, ws[j]? = some w →
    (wordBytes ws)[j * 8 + k]? = some (UInt8.ofNat (w / 256 ^ k)) := by
  intro ws
  induction ws with
  | nil => exact fun h => by cases h
  | cons v ws ih =>
    intro j h
    have hlen : ((List.range 8).map fun i => UInt8.ofNat (v / 256 ^ i)).length = 8 := rfl
    unfold wordBytes
    rw [List.flatMap_cons]
    cases j with
    | zero =>
      obtain rfl : v = w := Option.some.inj h
      rw [List.getElem?_append_left (by omega), List.getElem?_map,
        List.getElem?_range (by omega)]
      simp
    | succ j =>
      rw [List.getElem?_append_right (by omega), hlen,
        show (j + 1) * 8 + k - 8 = j * 8 + k by omega]
      exact ih h

/-- **The arguments as the program finds them**: an array of pointers at `sp` that ends with
    a null pointer, each to a string of its own, all of it in the page below `sz`. -/
structure ArgsAt (vm : Vm) (pt sz sp : Nat) (argv : List (List UInt8)) (ptr : Nat → Nat) :
    Prop where
  sp_aligned : sp % 16 = 0
  sp_page : sz - PGSIZE ≤ sp ∧ sp < sz
  pointer : ∀ j, j < argv.length → Bytes.ld (vm.byte pt) (sp + j * 8) 8 = ptr j
  null : Bytes.ld (vm.byte pt) (sp + argv.length * 8) 8 = 0
  aligned : ∀ j, j < argv.length → ptr j % 16 = 0
  string : ∀ j (hj : j < argv.length) k, k ≤ argv[j].length →
    vm.byte pt (ptr j + k) = (argv[j] ++ [0]).getD k 0
  above : ∀ j, j < argv.length → sp + (argv.length + 1) * 8 ≤ ptr j
  apart : ∀ j j' (hj : j' < argv.length), j < j' → ptr j' + argv[j'].length + 1 ≤ ptr j
  below : ∀ j (hj : j < argv.length), ptr j + argv[j].length + 1 ≤ sz

section
variable {s : Vm} {pa : Nat}

theorem argStack_string (hfit : Fits argv) (hj : j < argv.length)
    (hk : (argv[j] ++ [0])[k]? = some b) :
    argStack pg sz argv (PGSIZE - depth (argv.take (j + 1)) + k) = b := by
  have hle : depth argv + align16 ((argv.length + 1) * 8) ≤ PGSIZE := hfit
  have htake := depth_take_le argv (j + 1)
  unfold argStack
  rw [blit_above _ hle (by omega)]
  · have h : stacked pg 0 argv (PGSIZE - (0 + depth (argv.take (j + 1))) + k) = b :=
      stacked_string hj (by omega) hk
    rwa [Nat.zero_add] at h
  · rw [length_wordBytes, List.length_append, length_pointers]
    exact le_align16 _

theorem argStack_word (hk : k < 8) (hw : (pointers sz 0 argv ++ [0])[j]? = some w) :
    argStack pg sz argv (PGSIZE - (depth argv + align16 ((argv.length + 1) * 8)) + (j * 8 + k)) =
      UInt8.ofNat (w / 256 ^ k) := blit_at (wordBytes_getElem hk hw)

theorem argsAt_of_argStack (ht : StackTop s r sz pa) (hmem : s.mem pa = argStack pg sz argv)
    (hfit : Fits argv) : ArgsAt s r sz (sz - (depth argv + align16 ((argv.length + 1) * 8))) argv
      (fun j => sz - depth (argv.take (j + 1))) := by
  have hle : depth argv + align16 ((argv.length + 1) * 8) ≤ PGSIZE := hfit
  have hpg : PGSIZE = 4096 := rfl
  have hroom := ht.room
  have hal : sz % 4096 = 0 := ht.aligned
  have hsz : sz < 2 ^ 64 := ht.le.trans_lt (by decide)
  have hd := depth_mod argv
  have h16 := align16_mod ((argv.length + 1) * 8)
  have hge := le_align16 ((argv.length + 1) * 8)
  have hword : ∀ j w, j ≤ argv.length → (pointers sz 0 argv ++ [0])[j]? = some w → w < 2 ^ 64 →
      Bytes.ld (s.byte r)
        (sz - (depth argv + align16 ((argv.length + 1) * 8)) + j * 8) 8 = w := by
    intro j w hj hw hlt
    have hdig := Bytes.ld_of_digits (b := s.byte r) (w := 8) (v := w)
      (o := sz - (depth argv + align16 ((argv.length + 1) * 8)) + j * 8) fun k hk => by
        rw [show sz - (depth argv + align16 ((argv.length + 1) * 8)) + j * 8 + k =
          sz - PGSIZE + (PGSIZE - (depth argv + align16 ((argv.length + 1) * 8)) + (j * 8 + k)) by omega,
          ht.byte_eq (by omega), hmem]
        exact argStack_word hk hw
    rw [hdig]
    exact Nat.mod_eq_of_lt (by norm_num at hlt ⊢; exact hlt)
  have hptr : ∀ j, j < argv.length → depth (argv.take (j + 1)) ≤ depth argv := fun j _ =>
    depth_take_le argv (j + 1)
  refine ⟨by omega, ⟨by omega, by omega⟩, fun j hj => ?_, ?_, fun j hj => ?_,
    fun j hj k hk => ?_, fun j hj => ?_, fun j j' hj' hlt => ?_, fun j hj => ?_⟩
  · refine hword j _ (by omega) ?_ (by omega)
    rw [List.getElem?_append_left (by rw [length_pointers]; exact hj), pointers_getElem hj,
      Nat.zero_add]
  · refine hword argv.length 0 le_rfl ?_ (by decide)
    rw [List.getElem?_append_right (by rw [length_pointers]), length_pointers, Nat.sub_self]
    rfl
  · have := depth_mod (argv.take (j + 1))
    have := hptr j hj
    show (sz - depth (argv.take (j + 1))) % 16 = 0
    omega
  · have h1 := hptr j hj
    have h2 := depth_take_succ hj
    have h3 := le_align16 (argv[j].length + 1)
    have hk' : k < (argv[j] ++ [0]).length := by
      rw [List.length_append, List.length_singleton]
      omega
    show s.byte r (sz - depth (argv.take (j + 1)) + k) = _
    rw [show sz - depth (argv.take (j + 1)) + k =
      sz - PGSIZE + (PGSIZE - depth (argv.take (j + 1)) + k) by omega, ht.byte_eq (by omega), hmem,
      List.getD_eq_getElem _ _ hk']
    exact argStack_string hfit hj (List.getElem?_eq_getElem hk')
  · have := hptr j hj
    show _ ≤ sz - depth (argv.take (j + 1))
    omega
  · have h1 : depth (argv.take (j + 1)) ≤ depth (argv.take j') := by
      have h := depth_take_le (argv.take j') (j + 1)
      rwa [List.take_take, Nat.min_eq_left (by omega)] at h
    have h2 := depth_take_succ hj'
    have h3 := le_align16 (argv[j'].length + 1)
    have h4 := hptr j' hj'
    show sz - depth (argv.take (j' + 1)) + argv[j'].length + 1 ≤ sz - depth (argv.take (j + 1))
    omega
  · have h1 := hptr j hj
    have h2 := depth_take_succ hj
    have h3 := le_align16 (argv[j].length + 1)
    show sz - depth (argv.take (j + 1)) + argv[j].length + 1 ≤ sz
    omega

end

/-! ## `exec` -/

section
variable {s s' : Vm} {phoff phnum : Nat}

/-- **Loading with arguments**: the image comes to nothing whatever the arguments, or it is
    the same for all of them but for the stack page, and they only have to fit. -/
theorem loadProgram_runs (img : Image) (phoff phnum : Nat) (h : Space c s r tf 0) (ho : Own c s (s.space c r 0)) :
    (∃ sz vm, loadStack c img phoff phnum r s = .ok (.inl sz, vm) ∧
      ∀ argv, loadProgram c img phoff phnum argv r s = .ok (.inl sz, vm)) ∨
    ∃ sz1 pa s₁, loadStack c img phoff phnum r s = .ok (.inr sz1, s₁) ∧ StackTop s₁ r sz1 pa ∧
      Became c s s₁ r tf 0 sz1 ∧ ∀ argv, argv.length < MAXARG → (∀ a ∈ argv, a.length < PGSIZE) →
        ∃ res s', loadProgram c img phoff phnum argv r s = .ok (res, s') ∧ if Fits argv then
            res = .inr ⟨sz1, sz1 - (depth argv + align16 ((argv.length + 1) * 8)), argv.length⟩ ∧
              s' = s₁.put pa (argStack (s₁.mem pa) sz1 argv) else res = .inl sz1 := by
  obtain ⟨x, s₁, hrun, hx⟩ := run_of_wp (x := loadStack c img phoff phnum r) (loadStack_draws h ho)
  cases x with
  | inl sz =>
    refine .inl ⟨sz, s₁, hrun, fun argv => ?_⟩
    rw [loadProgram_eq]
    show (loadStack c img phoff phnum r >>= _) s = _
    rw [run_bind hrun]
    rfl
  | inr sz1 =>
    obtain ⟨hb, -, ⟨pa, ht⟩, -⟩ := hx
    refine .inr ⟨sz1, pa, s₁, hrun, ht, hb, fun argv hargc hlen => ?_⟩
    obtain ⟨res, s', hpush, hres⟩ := run_of_wp (pushAll_layout ht hb.space (hb.own' ho) hargc hlen)
    refine ⟨res, s', ?_, hres⟩
    rw [loadProgram_eq]
    show (loadStack c img phoff phnum r >>= _) s = _
    rw [run_bind hrun]
    exact hpush

end

def Sys.tfWord (s : Sys) (i off : Nat) : Nat := (s.vm.mem (s.proc i).trapframe).ld off 8

theorem startedPage_words (c : Board) (pg : Page) (entry sp : Nat) :
    (startedPage c pg entry sp).ld TF_SP 8 = sp % 2 ^ 64 ∧
      (startedPage c pg entry sp).ld TF_A1 8 = sp % 2 ^ 64 ∧
      (startedPage c pg entry sp).ld TF_EPC 8 = entry % 2 ^ 64 := by
  have h64 : 256 ^ 8 = 2 ^ 64 := by norm_num
  -- the word for the shadow stack comes after all of them
  have hout : ∀ off, off + 8 ≤ 552 → (startedPage c pg entry sp).ld off 8 =
      Bytes.ld (((pg.st TF_A1 8 sp).st TF_EPC 8 entry).st TF_SP 8 sp) off 8 := by
    intro off hoff
    unfold startedPage
    dsimp only
    split
    · refine Bytes.ld_st_disj (.inl ?_)
      unfold tfSsp
      split <;> omega
    · rfl
  refine ⟨?_, ?_, ?_⟩
  · rw [hout _ (by decide), Bytes.ld_st_self, h64]
  · rw [hout _ (by decide), Bytes.ld_st_disj (.inr (by decide)), Bytes.ld_st_disj (.inr (by decide)),
      Bytes.ld_st_self, h64]
  · rw [hout _ (by decide), Bytes.ld_st_disj (.inl (by decide)), Bytes.ld_st_self, h64]

section
variable {s s' : Sys} {X : Multiset Nat} {i : Nat} {path : List UInt8} {file : Option Image}

theorem execed_of_run {r : Int} (h : MemOk c s X) (hi : i < NPROC) (hl : (s.proc i).state ≠ .unused)
    (hrun : exec c i path file argv s = .ok (r, s')) : Execed c s s' i path file argv r := by
  have hw : wp (exec c i path file argv) (fun _ => True) _ s :=
    exec_spec h hi hl (fun _ _ _ => trivial) fun _ _ => trivial
  have hend := post_of_run hw hrun
  exact hend

theorem Imaged.leaf (h : Imaged c s s' i img argv pt prog vm₁ vm₂) (u : Nat) :
    s'.vm.leaf pt u = vm₂.leaf pt u :=
  Vm.leafAt_congr fun q hq => h.kept q (Multiset.mem_add.mpr (.inl hq))

theorem Beside.own_space {vm₀ vm : Vm} (h : Beside c vm₀ vm r tf sz) (ho : Own c vm₀ A) :
    Own c vm (vm.space c r sz) :=
  (h.own ho).left

theorem Imaged.args (h : Imaged c s s' i img argv pt prog vm₁ vm₂) (ho : Own c s.vm A)
    (hargc : argv.length < MAXARG) (hlen : ∀ a ∈ argv, a.length < PGSIZE) :
    Fits argv ∧ prog.argc = argv.length ∧
      prog.sp = prog.sz - (depth argv + align16 ((argv.length + 1) * 8)) ∧
      ∃ pa s₁, loadStack c img img.phoff img.phnum pt vm₁ = .ok (.inr prog.sz, s₁) ∧
        StackTop s₁ pt prog.sz pa ∧ Became c vm₁ s₁ pt (s.proc i).trapframe 0 prog.sz ∧
        vm₂ = s₁.put pa (argStack (s₁.mem pa) prog.sz argv) := by
  rcases loadProgram_runs img img.phoff img.phnum h.empty.space (h.empty.own_space ho) with hno | hyes
  · obtain ⟨sz, vm, -, hload⟩ := hno
    cases (hload argv).symm.trans h.load
  · obtain ⟨sz1, pa, s₁, hstack, ht, hb, hargs⟩ := hyes
    obtain ⟨res, vm, hload, hres⟩ := hargs argv hargc hlen
    obtain ⟨rfl, rfl⟩ := Prod.mk.inj (Except.ok.inj (hload.symm.trans h.load))
    by_cases hfit : Fits argv
    · rw [if_pos hfit] at hres
      obtain ⟨hprog, hvm⟩ := hres
      obtain rfl := Sum.inr.inj hprog
      exact ⟨hfit, rfl, rfl, pa, s₁, hstack, ht, hb, hvm⟩
    · rw [if_neg hfit] at hres
      cases hres

theorem argsAt_of_run {r : Int} (h : MemOk c s X) (hi : i < NPROC) (hl : (s.proc i).state ≠ .unused)
    (hargc : argv.length < MAXARG) (hlen : ∀ a ∈ argv, a.length < PGSIZE)
    (hrun : exec c i path file argv s = .ok (r, s')) (hr : r ≠ -1) :
    r = argv.length ∧ s'.tfWord i TF_A1 = s'.tfWord i TF_SP ∧
      ∃ ptr, ArgsAt s'.vm (s'.proc i).pagetable (s'.proc i).sz (s'.tfWord i TF_SP) argv ptr := by
  have ho := (h.own_slot hi).left
  cases execed_of_run h hi hl hrun with
  | refused => exact absurd rfl hr
  | failed => exact absurd rfl hr
  | ok prog pt elf step proc oom shadow good old image =>
    obtain ⟨img, vm₁, vm₂, -, him⟩ := image
    obtain ⟨hfit, hargc', hsp, pa, s₁, -, ht, hb, hvm⟩ := him.args ho hargc hlen
    have hs := him.empty.became hb
    have htop : StackTop vm₂ pt prog.sz pa := by
      rw [hvm]
      exact (ht.put hs.space (hs.own_space ho) _).1
    have htop' := htop.congr him.leaf
    have hmem : s'.vm.mem pa = argStack (s₁.mem pa) prog.sz argv := by
      rw [him.kept pa (Multiset.mem_add.mpr (.inr htop.mem_user)), hvm, Vm.put_mem_self]
    have hargs := argsAt_of_argStack htop' hmem hfit
    have hsz : prog.sz < 2 ^ 64 := ht.le.trans_lt (by decide)
    obtain ⟨hw1, hw2, -⟩ := startedPage_words c (s.vm.mem (s.proc i).trapframe) img.entry prog.sp
    have hmod : prog.sp % 2 ^ 64 = prog.sp := Nat.mod_eq_of_lt (by omega)
    have htf : (s'.proc i).trapframe = (s.proc i).trapframe := by rw [proc]
    unfold Sys.tfWord
    rw [htf, him.trapframe, hw1, hw2, hmod, proc, hargc', hsp]
    exact ⟨rfl, rfl, _, hargs⟩

end

end ZeptOS.Mem
