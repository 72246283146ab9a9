import ZeptOS.Mem.Exit

/-!
# Pages the kernel takes for itself

`sys_exec` keeps each argument string in a page of its own while `exec` runs, and booting
takes pages that are never given back. Both are changes of `B`, the pages the kernel
holds beside the pipes; the processes do not notice.
-/

namespace ZeptOS.Mem

open Lib Lib.Prog Multiset

variable {c : Board} {s s' : Sys} {vm : Vm} {B : Multiset Nat} {q uargv : Nat} {E : Panic → Prop}

section
variable {B' : Multiset Nat} {extra : Nat → Nat}

theorem Held.kernel_pages (h : Held c s B extra)
    (hmem : ∀ q, q ∈ s.procPages c ∨ q ∈ pipePages s.file → vm.mem q = s.vm.mem q)
    (hbal : B' + ↑vm.freelist = B + (↑s.vm.freelist : Multiset Nat)) :
    Held c { s with vm := vm } B' extra := by
  refine ⟨⟨?_, h.kernel.files.mem_congr fun q hq => hmem q (.inr hq)⟩, h.bounded, h.closed⟩
  refine h.mem.kernel (fun _ _ => SameMemory.refl _) (fun q hq => hmem q (.inl hq)) ?_
  show (pipePages s.file).val + B' + ↑vm.freelist = _
  rw [add_assoc, hbal, add_assoc]

theorem Held.not_mem_of_kernel (h : Held c s B extra) (hq : q ∈ B) :
    ¬ (q ∈ s.procPages c ∨ q ∈ pipePages s.file) := by
  have ho := h.mem.own
  rw [← add_assoc] at ho
  rintro (hp | hp)
  · exact ho.disjoint (subset_add_left hp) hq
  · exact ho.disjoint (subset_add_right hp) hq

theorem Held.not_mem_of_free (h : Held c s B extra) (hq : q ∈ s.vm.freelist) :
    ¬ (q ∈ s.procPages c ∨ q ∈ pipePages s.file) := by
  rintro (hp | hp)
  · exact h.mem.own.not_free (subset_add_left hp) hq
  · exact h.mem.own.not_free (subset_add_right (subset_add_left hp)) hq

theorem Held.take {rest : List Nat} (h : Held c s B extra) (hf : s.vm.freelist = q :: rest) :
    IsPage c q ∧ Held c { s with vm := s.vm.take q rest } ({q} + B) extra := by
  refine ⟨h.mem.own.free_isPage (hf ▸ List.mem_cons_self), ?_⟩
  refine h.kernel_pages (fun p hp => Vm.take_mem_of_ne ?_) ?_
  · rintro rfl
    exact h.not_mem_of_free (hf ▸ List.mem_cons_self) hp
  · rw [hf, show (s.vm.take q rest).freelist = rest from rfl, ← cons_coe,
      ← singleton_add]
    abel

theorem Held.give (h : Held c s ({q} + B) extra) :
    IsPage c q ∧ Held c { s with vm := s.vm.give q } B extra := by
  have hq : q ∈ {q} + B := subset_add_left (mem_singleton_self q)
  refine ⟨h.mem.own.isPage (subset_add_right (subset_add_right hq)), ?_⟩
  refine h.kernel_pages (fun p hp => Vm.give_mem_of_ne ?_) ?_
  · rintro rfl
    exact h.not_mem_of_kernel hq hp
  · rw [Vm.give_freelist, ← cons_coe, ← singleton_add]
    abel

theorem Held.write (pg : Page) (h : Held c s B extra) (hq : q ∈ B) :
    Held c { s with vm := s.vm.put q pg } B extra := by
  refine h.kernel_pages (fun p hp => Vm.put_mem_of_ne ?_) rfl
  rintro rfl
  exact h.not_mem_of_kernel hq hp

end

/-! ## The arguments of `exec` -/

section
variable {r : Nat} {p : Proc}

theorem wp_walkaddr {va : Nat} {Q : Nat → Vm → Prop} (h : ∀ pa, Q pa vm) :
    wp (walkaddr r va) E Q vm := wp_of_run Tables.walkaddr_eq (h _)

theorem wp_copyinLoop : ∀ {n srcva len : Nat} {Q : Bool × List UInt8 → Vm → Prop},
    (∀ a, Q a vm) → wp (copyinLoop r n srcva len) E Q vm := by
  intro n
  induction n with
  | zero => intro srcva len Q h; exact h _
  | succ n ih =>
    intro srcva len Q h
    unfold copyinLoop
    split
    · rw [wp_bind]
      refine wp_walkaddr fun pa => ?_
      split
      · exact h _
      · rw [wp_bind, wp_get, wp_bind]
        exact ih fun _ => h _
    · exact h _

theorem wp_copyinstrLoop : ∀ {n srcva max : Nat} {Q : Bool × List UInt8 → Vm → Prop},
    (∀ a, Q a vm) → wp (copyinstrLoop r n srcva max) E Q vm := by
  intro n
  induction n with
  | zero => intro srcva max Q h; exact h _
  | succ n ih =>
    intro srcva max Q h
    unfold copyinstrLoop
    split
    · rw [wp_bind]
      refine wp_walkaddr fun pa => ?_
      split
      · exact h _
      · rw [wp_bind, wp_get]
        dsimp only
        split
        · exact h _
        · rw [wp_bind]
          exact ih fun _ => h _
    · exact h _

theorem wp_fetchaddr {addr : Nat} {Q : Option Nat → Vm → Prop} (h : ∀ a, Q a vm) :
    wp (fetchaddr p addr) E Q vm := by
  unfold fetchaddr
  split
  · exact h _
  · rw [wp_bind]
    refine wp_copyinLoop ?_
    rintro ⟨ok, bs⟩
    cases ok <;> exact h _

theorem fetchArgs_spec : ∀ {n : Nat} {argv : List (Nat × List UInt8)} {vm : Vm},
    Good c { s with vm := vm } (↑(argv.map Prod.fst) + B) →
    wp (fetchArgs p uargv n argv) E (fun res vm' =>
      Good c { s with vm := vm' } (↑(res.2.map Prod.fst) + B)) vm := by
  intro n
  induction n with
  | zero => intro argv vm h; exact h
  | succ n ih =>
    intro argv vm h
    unfold fetchArgs
    rw [wp_bind]
    refine wp_fetchaddr fun res => ?_
    cases res with
    | none => exact h
    | some uarg =>
      dsimp only
      split
      · exact h
      · cases hf : vm.freelist with
        | nil =>
          rw [wp_bind, wp_kalloc_nil hf, if_pos rfl]
          exact Held.kernel_pages (s := { s with vm := vm }) h (fun _ _ => rfl) rfl
        | cons page rest =>
          obtain ⟨hpg, h1⟩ := Held.take h hf
          rw [wp_bind, wp_kalloc_cons hf, if_neg hpg.pos]
          rw [wp_bind]
          refine wp_copyinstrLoop ?_
          rintro ⟨ok, buf⟩
          rw [wp_bind, wp_modify]
          have hmem : page ∈ {page} + (↑(argv.map Prod.fst) + B) :=
            subset_add_left (mem_singleton_self page)
          have h2 := Held.write (((vm.take page rest).mem page).blit 0 buf) h1 hmem
          have hpages : (↑((argv ++ [(page, cstring buf)]).map Prod.fst) : Multiset Nat) + B =
              {page} + (↑(argv.map Prod.fst) + B) := by
            rw [List.map_append, ← coe_add, add_comm (↑(argv.map Prod.fst) : Multiset Nat),
              add_assoc]
            rfl
          rw [← hpages] at h2
          dsimp only
          split
          · exact h2
          · exact ih h2

theorem freeArgs_spec : ∀ {pages : List Nat} {vm : Vm}, Good c { s with vm := vm } (↑pages + B) →
    wp (freeArgs c pages) E (fun _ vm' => Good c { s with vm := vm' } B) vm := by
  intro pages
  induction pages with
  | nil =>
    intro vm h
    rw [coe_nil, zero_add] at h
    exact h
  | cons page rest ih =>
    intro vm h
    rw [← cons_coe, ← singleton_add, add_assoc] at h
    obtain ⟨hpg, h1⟩ := Held.give h
    unfold freeArgs
    rw [wp_bind, wp_kfree hpg]
    exact ih h1

/-- **`sys_exec`** keeps the invariant. -/
theorem sysExec_good {namei : List UInt8 → Option Image} {i path : Nat} (h : Good c s B)
    (hi : i < NPROC) (hl : ¬ (s.proc i).gone) (hE : c.shadowStack = true → E .kfree) :
    wp (sysExec c namei i path uargv) E (fun _ s' => Good c s' B) s := by
  have hli : (s.proc i).state ≠ .unused := fun hh => hl (.inl hh)
  unfold sysExec
  rw [wp_bind, wp_get, wp_bind, wp_onVm]
  refine wp_copyinstrLoop ?_
  rintro ⟨ok, name⟩
  dsimp only
  split
  · exact h
  · rw [wp_bind, wp_onVm]
    have h0 : Good c s (↑(([] : List (Nat × List UInt8)).map Prod.fst) + B) := by
      rw [List.map_nil, coe_nil, zero_add]
      exact h
    refine wp_mono (fetchArgs_spec (s := s) h0) ?_
    rintro ⟨ok, argv⟩ vm₁ h1
    dsimp only at h1 ⊢
    split
    · rw [wp_bind, wp_onVm]
      exact wp_mono (freeArgs_spec h1) fun _ _ h2 => h2
    · refine wp_call (exec_spec h1.mem hi hli (fun hc _ _ => hE hc) fun hc _ => hE hc) ?_
      intro ret s₂ hex
      have h2 := hex.good h1 hi
      rw [wp_bind, wp_onVm]
      exact wp_mono (freeArgs_spec (s := s₂) h2) fun _ _ h3 => h3

end

end ZeptOS.Mem
