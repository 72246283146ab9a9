import ZeptOS.Sched.Parents
import ZeptOS.Sched.Pids

/-!
# Who is waited for

`exits` and `waits` record what processes have done: who has called `exit`, with which status,
and which children `wait` has returned to whom. A slot is used again, and pids may be, so a
process is known by its birth. The invariant follows a process from `exit`, where its record
is made, over the zombie, which carries pid and status in its slot, to the `wait` that has
found it and carries both to user space.

Whether a parent calls `wait` at all, and how long a child has to wait for it, is not covered.
-/

namespace ZeptOS.Sched

open Lib
open Mem (ProcState)

variable {n : Nat} {H : Type} {M : Monitor} {s s' : Sys n H M} {h : H} {inp : Input M}
variable {addr : Nat} {e : Exited}

def Pc.reaps : Pc n M → Option (Reap n)
  | .waitReap r => some r
  | .waitReturn r => r
  | _ => none

variable {p : Pc n M}

theorem Pc.reaps_plain (h : p.Plain) : p.reaps = none := by
  cases p
  case waitReturn r => cases r <;> first | rfl | exact h.elim
  all_goals first | exact h.elim | rfl

variable {x : Int × Nat}

theorem Pc.reaps_leaving (h : p.leaving = some x) : p.reaps = none := by
  cases p <;> first | rfl | cases h

/-! ## What a step records -/

inductive Records (s : Sys n H M) (h : H) (s' : Sys n H M) : Prop
  | stays (hbs : s'.births = s.births) (hb : s'.birth = s.birth) (he : s'.exits = s.exits)
      (hw : s'.waits = s.waits)
  | alloc {j : Fin n} (hu : (s.slot j).state = .unused) (hbs : s'.births = s.births + 1)
      (hb : s'.birth = Function.update s.birth j s.births) (he : s'.exits = s.exits)
      (hw : s'.waits = s.waits)
  | exiting {i : Fin n} {st : Int} (hc : s.ctl h = .thread i) (hp : ∃ r, (s.thread i).pc = .user r)
      (hi : (s.thread i).intr = none) (hp' : (s'.thread i).pc = .exit st)
      (hsl : s'.slot = s.slot) (hbs : s'.births = s.births) (hb : s'.birth = s.birth)
      (he : s'.exits = ⟨s.birth i, (s.slot i).pid, st⟩ :: s.exits) (hw : s'.waits = s.waits)
  | waited {i : Fin n} {r : Reap n} (hc : s.ctl h = .thread i)
      (hp : (s.thread i).pc = .waitReturn (some r)) (hp' : (s'.thread i).pc = .user r.pid)
      (hbs : s'.births = s.births) (hb : s'.birth = s.birth) (he : s'.exits = s.exits)
      (hw : s'.waits = (i, r) :: s.waits)

theorem Placed.records [DecidableEq H] (P : Placed s) (hs : Step s h inp s') : Records s h s' := by
  cases hs with
  | wrap _ _ | skip _ _ _ | pick _ _ _ | next _ _ | back _ _ | irq _ _ | trap _ _ _ _
  | sched _ _ _ _ _ => exact .stays rfl rfl rfl rfl
  | @job k p m _ hj _ =>
    rcases job_change hj with h0 | ⟨l, x, d, -, h0⟩ | ⟨c, j, w, -, -, -, h0⟩ <;>
      refine .stays ?_ ?_ ?_ ?_ <;> simp [h0, Eff.apply, Sys.modify]
  | @move i m hc hsc hm he =>
    have hch := code_change hm
    cases heff : m.eff with
    | alloc j =>
      have hu : (s.slot j).state = .unused := by
        cases hch with
        | alloc _ hu =>
          cases heff
          exact hu
        | quiet hq _ _ =>
          rw [heff] at hq
          exact hq.elim
        | _ => cases heff
      exact .alloc hu (by simp [Eff.apply]) (by simp [Eff.apply]) (by simp [Eff.apply, Sys.modify])
        (by simp [Eff.apply, Sys.modify])
    | exiting j st =>
      obtain ⟨rfl, ⟨r, hp⟩, -, hpc⟩ := code_exiting hm heff
      obtain ⟨hp, hi⟩ := P.top_pc hp fun hh => hh
      refine .exiting hc ⟨r, hp⟩ hi (?_ : _ = Pc.exit st) ?_ ?_ ?_ ?_ ?_
      · simp [goto_pc_of_none hi, hpc]
      all_goals simp [Eff.apply]
    | waited j r =>
      obtain ⟨rfl, hp⟩ := code_waited hm heff
      obtain ⟨hp', hi⟩ := P.top_pc hp fun hh => hh
      rw [hp] at hm
      cases hm
      exact .waited hc hp' (by simp [goto_pc_of_none hi]) (by simp [Eff.apply])
        (by simp [Eff.apply]) (by simp [Eff.apply]) (by simp [Eff.apply])
    | _ => refine .stays ?_ ?_ ?_ ?_ <;> simp [Eff.apply, Sys.modify]

theorem Records.exits_mono (R : Records s h s') (he : e ∈ s.exits) : e ∈ s'.exits := by
  cases R with
  | stays _ _ h _ | alloc _ _ _ h _ | waited _ _ _ _ _ h _ =>
    rw [h]
    exact he
  | exiting _ _ _ _ _ _ _ h _ =>
    rw [h]
    exact List.mem_cons_of_mem _ he

/-! ## What happens to a process -/

variable {i : Fin n}

theorem Placed.live (P : Placed s) (hp : (s.thread i).pc ≠ .dead) : (s.slot i).state ≠ .unused := by
  intro hu
  by_cases hc : ∃ h, s.ctl h = .thread i
  · obtain ⟨h, hc⟩ := hc
    rw [P.on h i hc] at hu
    exact Pc.state_ne.2 hu
  · have hoff := P.off i fun h hh => hc ⟨h, hh⟩
    rw [hu] at hoff
    exact hp (congrArg Thread.pc hoff)

theorem Placed.not_zombie (P : Placed s) (hc : s.ctl h = .thread i)
    (hp : (s.thread i).pc.state ≠ .zombie) : (s.slot i).state ≠ .zombie := by
  rw [P.on h i hc]
  rcases P.top i with ⟨htop, -⟩ | ⟨-, hh⟩
  · rw [htop]
    exact hp
  · intro hz
    cases hpc : (s.thread i).top <;> rw [hpc] at hh hz <;>
      first | exact hh | cases hz

variable [DecidableEq H]

variable {j : Fin n}

theorem Placed.same (P : Placed s) (hs : Step s h inp s')
    (hl : (s.slot j).state ≠ .unused) (hl' : (s'.slot j).state ≠ .unused) :
    s'.birth j = s.birth j ∧ (s'.slot j).pid = (s.slot j).pid := by
  refine ⟨?_, ?_⟩
  · cases P.records hs with
    | stays _ hb _ _ | exiting _ _ _ _ _ _ hb _ _ | waited _ _ _ _ hb _ _ => rw [hb]
    | @alloc k hu _ hb _ _ =>
      have hjk : j ≠ k := by
        rintro rfl
        exact hl hu
      rw [hb, Function.update_of_ne hjk]
  · rcases P.pid_turns hs hl' with ⟨-, e⟩ | ⟨-, -, -, hu, -⟩
    · exact e
    · exact absurd hu hl

theorem Placed.zombie_turns (P : Placed s) (hs : Step s h inp s')
    (hz : (s'.slot j).state = .zombie) :
    (s.slot j).state = .zombie ∧ (s'.slot j).xstate = (s.slot j).xstate ∨
      ∃ st, (s.thread j).pc = .exitZombie st ∧ (s'.slot j).xstate = st := by
  cases P.turns hs j with
  | stays e | parent _ _ _ e | reparent _ _ _ _ e | tidy _ _ e =>
    rw [e] at hz ⊢
    exact .inl ⟨hz, rfl⟩
  | kill _ _ _ _ _ e =>
    rw [e] at hz ⊢
    simp only at hz
    split at hz
    · cases hz
    · exact .inl ⟨hz, rfl⟩
  | exit _ hp _ e => exact .inr ⟨_, hp, by rw [e]⟩
  | allocFail _ _ _ e | free _ _ _ _ e | run _ _ e | alloc _ _ _ _ _ _ e | ready _ _ _ e
  | wake _ _ e | sleep _ _ e | yield _ _ e =>
    rw [e] at hz
    cases hz

theorem Placed.zombie_stays (P : Placed s) (hs : Step s h inp s')
    (hz : (s.slot j).state = .zombie) :
    (s'.slot j).state = .zombie ∧ (s'.slot j).pid = (s.slot j).pid ∧
      (s'.slot j).xstate = (s.slot j).xstate ∨
    s'.slot j = .empty ∧ ∃ i addr, (s.thread i).pc = .waitChild addr j ∧
      (s'.thread i).pc = .waitReap
        ⟨j, s.birth j, (s.slot j).pid, (s.slot j).xstate, (s.slot j).parent⟩ := by
  cases P.turns hs j with
  | stays e | parent _ _ _ e | reparent _ _ _ _ e | tidy _ _ e =>
    rw [e]
    exact .inl ⟨hz, rfl, rfl⟩
  | kill _ _ _ _ _ e =>
    rw [e]
    simp [hz]
  | free _ hp _ hp' e => exact .inr ⟨e, _, _, hp, hp'⟩
  | exit hc hp _ _ => exact absurd hz (P.not_zombie hc (by rw [hp]; exact nofun))
  | sleep hc hp _ | yield hc hp _ =>
    rw [P.on h j hc, hp] at hz
    cases hz
  | run _ hst _ | ready _ _ hst _ | wake hst _ _ | alloc _ _ hst _ _ _ _ | allocFail _ _ hst _ =>
    rw [hst] at hz
    cases hz

theorem Pc.sched_leaving (h : p.leaving = some x) : p.sched = none := by
  cases p <;> first | rfl | cases h

omit [DecidableEq H] in
theorem code_leaving {m : Move n M} (hm : code s i inp p = .next m) (hx : p.leaving = some x) :
    m.pc.leaving ≠ none ∨ m.eff = .exit i x.1 := by
  have hact (ha : Acts s (some i) p m) : m.pc.leaving ≠ none := by
    cases ha with
    | @skip _ _ k | @look _ _ k | @past _ _ k | @next _ _ k =>
      cases k <;> cases hx <;> exact Option.some_ne_none _
    | _ => cases hx
  revert hm
  fun_cases code s i inp p <;> intro hm <;> first
    | exact .inl (hact (job_acts hm))
    | cases hm <;> cases hx
  all_goals first
    | exact .inl (Option.some_ne_none _)
    | exact .inr rfl

theorem Placed.leaving_stays (P : Placed s) (hs : Step s h inp s')
    (hx : (s.thread j).pc.leaving = some x) :
    (s'.thread j).pc.leaving ≠ none ∨ (s'.slot j).state = .zombie := by
  cases P.goes hs j with
  | stays e =>
    rw [e, hx]
    exact .inl (Option.some_ne_none _)
  | born hu _ =>
    refine absurd hu (P.live fun hd => ?_)
    rw [hd] at hx
    cases hx
  | swtch _ hq _ =>
    rw [Pc.sched_leaving hx] at hq
    cases hq
  | moves _ _ hm _ ht e =>
    rw [e, ht.slot]
    refine (code_leaving hm hx).imp_right fun he => ?_
    rw [he]
    simp [Eff.apply]

theorem Placed.reaps_turns (P : Placed s) (F : Family s) (hs : Step s h inp s')
    {r : Reap n} (hr : (s'.thread i).pc.reaps = some r) : (s.thread i).pc.reaps = some r ∨
    ∃ pp, s.ctl h = .thread i ∧ (s.slot pp).state = .zombie ∧ (s.slot pp).parent = some i ∧
      r = ⟨pp, s.birth pp, (s.slot pp).pid, (s.slot pp).xstate, (s.slot pp).parent⟩ ∧
      s'.slot pp = .empty := by
  rcases P.arrives (fun _ => Pc.reaps_plain) hs hr with e | ⟨m, hc, -, hpl, hm, ht, e⟩ <;>
    rw [e] at hr
  · exact .inl hr
  · cases hm with
    | plain hpc => exact absurd hpc hpl
    | @reap addr pp hp hz =>
      cases hr
      refine .inr ⟨pp, hc, hz, F.looks i pp (by rw [hp]; rfl), rfl, ?_⟩
      rw [ht.slot]
      simp [Eff.apply]
    | reaped hp =>
      rw [hp]
      exact .inl hr
    | wakes _ hx =>
      rw [Pc.reaps_leaving hx] at hr
      cases hr
    | _ => cases hr

/-! ## The invariant -/

structure History (s : Sys n H M) : Prop where
  birth : ∀ j, (s.slot j).state ≠ .unused → s.birth j < s.births
  inj : ∀ j k, (s.slot j).state ≠ .unused → (s.slot k).state ≠ .unused →
    s.birth j = s.birth k → j = k
  exited : ∀ e ∈ s.exits, e.birth < s.births
  leaving : ∀ i x, (s.thread i).pc.leaving = some x →
    ⟨s.birth i, (s.slot i).pid, x.1⟩ ∈ s.exits
  zombie : ∀ j, (s.slot j).state = .zombie →
    ⟨s.birth j, (s.slot j).pid, (s.slot j).xstate⟩ ∈ s.exits
  gone : ∀ e ∈ s.exits, ∀ j, (s.slot j).state ≠ .unused → s.birth j = e.birth →
    (s.thread j).pc.leaving ≠ none ∨ (s.slot j).state = .zombie
  once : (s.exits.map Exited.birth).Nodup
  found : ∀ i r, (i, r) ∈ s.waits ∨ (s.thread i).pc.reaps = some r →
    ⟨r.birth, r.pid, r.status⟩ ∈ s.exits ∧ r.parent = some i ∧
      ∀ j, (s.slot j).state ≠ .unused → s.birth j ≠ r.birth
  apart : ∀ i i' r r', (s.thread i).pc.reaps = some r → (s.thread i').pc.reaps = some r' →
    r.birth = r'.birth → i = i'
  unreturned : ∀ i r, (s.thread i).pc.reaps = some r → ∀ w ∈ s.waits, w.2.birth ≠ r.birth
  waits : (s.waits.map fun w => w.2.birth).Nodup

section Step

variable (R : History s) (P : Placed s) (hs : Step s h inp s')
include P hs

theorem Placed.births_mono : s.births ≤ s'.births := by
  cases P.records hs with
  | stays hbs _ _ _ | exiting _ _ _ _ _ hbs _ _ _ | waited _ _ _ hbs _ _ _ => rw [hbs]
  | alloc _ hbs _ _ _ => omega

include R

theorem History.live_turns (hl : (s'.slot j).state ≠ .unused) :
    (s.slot j).state ≠ .unused ∧ s'.birth j = s.birth j ∧ s.birth j < s.births ∨
      s'.birth j = s.births ∧ s'.births = s.births + 1 ∧ ∃ i, s.ctl h = .thread i ∧
        (s.thread i).top = .alloc j := by
  rcases P.pid_turns hs hl with ⟨hl0, -⟩ | ⟨-, -, hal, -, hbs, hb⟩
  · exact .inl ⟨hl0, (P.same hs hl0 hl).1, R.birth j hl0⟩
  · exact .inr ⟨hb, hbs, hal⟩

theorem History.step_birth (j : Fin n) (hl : (s'.slot j).state ≠ .unused) :
    s'.birth j < s'.births := by
  have hmono := P.births_mono hs
  rcases R.live_turns P hs hl with ⟨-, hb, hlt⟩ | ⟨hb, hbs, -⟩ <;> omega

theorem History.step_inj (j k : Fin n) (hj : (s'.slot j).state ≠ .unused)
    (hk : (s'.slot k).state ≠ .unused) (hjk : s'.birth j = s'.birth k) : j = k := by
  rcases R.live_turns P hs hj with ⟨hj0, hbj, hltj⟩ | ⟨hbj, -, i, hc, hp⟩ <;>
    rcases R.live_turns P hs hk with ⟨hk0, hbk, hltk⟩ | ⟨hbk, -, i', hc', hp'⟩
  · exact R.inj j k hj0 hk0 (by rw [← hbj, ← hbk, hjk])
  · omega
  · omega
  · rw [hc] at hc'
    cases hc'
    rw [hp] at hp'
    exact Fin.ext (Pc.alloc.inj hp')

theorem History.step_exited : ∀ e ∈ s'.exits, e.birth < s'.births := by
  have hmono := P.births_mono hs
  intro e he
  cases P.records hs with
  | stays _ _ hx _ | alloc _ _ _ hx _ | waited _ _ _ _ _ hx _ =>
    rw [hx] at he
    exact Nat.lt_of_lt_of_le (R.exited e he) hmono
  | exiting _ hp _ _ _ _ _ hx _ =>
    rw [hx] at he
    rcases List.mem_cons.mp he with rfl | he
    · obtain ⟨r, hp⟩ := hp
      refine Nat.lt_of_lt_of_le (R.birth _ (P.live fun hd => ?_)) hmono
      rw [hp] at hd
      cases hd
    · exact Nat.lt_of_lt_of_le (R.exited e he) hmono

theorem History.step_leaving (i : Fin n) (x : Int × Nat) (hx : (s'.thread i).pc.leaving = some x) :
    ⟨s'.birth i, (s'.slot i).pid, x.1⟩ ∈ s'.exits := by
  have hl' : (s'.slot i).state ≠ .unused := (P.step hs).live fun hd => by
    rw [hd] at hx
    cases hx
  have hold : ∀ {st k}, (s.thread i).pc.leaving = some (st, k) →
      ⟨s'.birth i, (s'.slot i).pid, st⟩ ∈ s'.exits := by
    intro st k hx'
    have hl : (s.slot i).state ≠ .unused := P.live fun hd => by
      rw [hd] at hx'
      cases hx'
    obtain ⟨hb, hpid⟩ := P.same hs hl hl'
    rw [hb, hpid]
    exact (P.records hs).exits_mono (R.leaving i _ hx')
  rcases P.arrives (fun _ => Pc.leaving_plain) hs hx with e | ⟨m, -, -, hpl, hm, ht, e⟩ <;>
    rw [e] at hx
  · exact hold hx
  · cases hm with
    | plain hpc => exact absurd hpc hpl
    | exit _ _ =>
      cases hx
      rw [ht.exits, ht.slot, ht.birth]
      exact List.mem_cons_self
    | reparent hp | pass hp _ | give hp _ | gave hp _ =>
      cases hx
      exact hold (by rw [hp]; rfl)
    | wakes hx0 hx1 =>
      rw [hx1] at hx
      cases hx
      exact hold hx0
    | _ => cases hx

theorem History.step_zombie (j : Fin n) (hz : (s'.slot j).state = .zombie) :
    ⟨s'.birth j, (s'.slot j).pid, (s'.slot j).xstate⟩ ∈ s'.exits := by
  have hl' : (s'.slot j).state ≠ .unused := by
    rw [hz]
    exact nofun
  rcases P.zombie_turns hs hz with ⟨hz0, hx⟩ | ⟨st, hp, hx⟩
  · obtain ⟨hb, hpid⟩ := P.same hs (by rw [hz0]; exact nofun) hl'
    rw [hb, hpid, hx]
    exact (P.records hs).exits_mono (R.zombie j hz0)
  · obtain ⟨hb, hpid⟩ := P.same hs (P.live (by rw [hp]; exact nofun)) hl'
    rw [hb, hpid, hx]
    exact (P.records hs).exits_mono (R.leaving j (st, n) (by rw [hp]; rfl))

theorem History.step_gone (e : Exited) (he : e ∈ s'.exits) (j : Fin n)
    (hl : (s'.slot j).state ≠ .unused) (hb : s'.birth j = e.birth) :
    (s'.thread j).pc.leaving ≠ none ∨ (s'.slot j).state = .zombie := by
  have hold : e ∈ s.exits → (s'.thread j).pc.leaving ≠ none ∨ (s'.slot j).state = .zombie := by
    intro he
    rcases R.live_turns P hs hl with ⟨hl0, hb0, -⟩ | ⟨hb0, -, -⟩
    · rcases R.gone e he j hl0 (hb0.symm.trans hb) with hx | hz
      · obtain ⟨x, hx⟩ := Option.ne_none_iff_exists'.mp hx
        exact P.leaving_stays hs hx
      · rcases P.zombie_stays hs hz with ⟨hz', -, -⟩ | ⟨hempty, -⟩
        · exact .inr hz'
        · rw [hempty] at hl
          exact absurd rfl hl
    · have := R.exited e he
      omega
  cases P.records hs with
  | stays _ _ hx _ | alloc _ _ _ hx _ | waited _ _ _ _ _ hx _ =>
    rw [hx] at he
    exact hold he
  | @exiting i st _ hp _ hp' hsl _ hbi hx _ =>
    rw [hx] at he
    rcases List.mem_cons.mp he with rfl | he
    · refine .inl ?_
      have hij : j = i := by
        obtain ⟨r, hp⟩ := hp
        rw [hsl] at hl
        rw [hbi] at hb
        exact R.inj j i hl (P.live (by rw [hp]; exact nofun)) hb
      rw [hij, hp']
      exact Option.some_ne_none _
    · exact hold he

theorem History.step_once : (s'.exits.map Exited.birth).Nodup := by
  cases P.records hs with
  | stays _ _ hx _ | alloc _ _ _ hx _ | waited _ _ _ _ _ hx _ =>
    rw [hx]
    exact R.once
  | @exiting i st hc hp hi _ _ _ _ hx _ =>
    obtain ⟨r, hp⟩ := hp
    rw [hx, List.map_cons, List.nodup_cons]
    refine ⟨fun hmem => ?_, R.once⟩
    -- a process in user space has not called `exit` before
    obtain ⟨e, he, hb⟩ := List.mem_map.mp hmem
    rcases R.gone e he i (P.live (by rw [hp]; exact nofun)) hb.symm with hx | hz
    · rw [hp] at hx
      exact hx rfl
    · exact P.not_zombie hc (by rw [hp]; exact nofun) hz

/-- A process that has been found by a `wait` is not there any more, and does not come back. -/
theorem History.stays_gone (he : e ∈ s.exits)
    (hno : ∀ j, (s.slot j).state ≠ .unused → s.birth j ≠ e.birth) (j : Fin n)
    (hl : (s'.slot j).state ≠ .unused) : s'.birth j ≠ e.birth := by
  rcases R.live_turns P hs hl with ⟨hl0, hb, -⟩ | ⟨hb, -, -⟩
  · rw [hb]
    exact hno j hl0
  · have := R.exited e he
    omega

theorem History.step_found (F : Family s) (i : Fin n) (r : Reap n)
    (hr : (i, r) ∈ s'.waits ∨ (s'.thread i).pc.reaps = some r) :
    ⟨r.birth, r.pid, r.status⟩ ∈ s'.exits ∧ r.parent = some i ∧
      ∀ j, (s'.slot j).state ≠ .unused → s'.birth j ≠ r.birth := by
  have hold : (i, r) ∈ s.waits ∨ (s.thread i).pc.reaps = some r →
      ⟨r.birth, r.pid, r.status⟩ ∈ s'.exits ∧ r.parent = some i ∧
        ∀ j, (s'.slot j).state ≠ .unused → s'.birth j ≠ r.birth := by
    intro hr
    obtain ⟨he, hpar, hno⟩ := R.found i r hr
    exact ⟨(P.records hs).exits_mono he, hpar, R.stays_gone P hs he hno⟩
  rcases hr with hr | hr
  · cases P.records hs with
    | stays _ _ _ hw | alloc _ _ _ _ hw | exiting _ _ _ _ _ _ _ _ hw =>
      rw [hw] at hr
      exact hold (.inl hr)
    | waited _ hp _ _ _ _ hw =>
      rw [hw] at hr
      rcases List.mem_cons.mp hr with heq | hr
      · cases heq
        exact hold (.inr (by rw [hp]; rfl))
      · exact hold (.inl hr)
  · rcases P.reaps_turns F hs hr with hr | ⟨pp, -, hz, hpar, rfl, hempty⟩
    · exact hold (.inr hr)
    · refine ⟨(P.records hs).exits_mono (R.zombie pp hz), hpar, fun j hl hb => ?_⟩
      have hlpp : (s.slot pp).state ≠ .unused := by
        rw [hz]
        exact nofun
      rcases R.live_turns P hs hl with ⟨hl0, hb0, -⟩ | ⟨hb0, -, -⟩
      · have hj := R.inj j pp hl0 hlpp (hb0.symm.trans hb)
        rw [hj, hempty] at hl
        exact hl rfl
      · have := R.birth pp hlpp
        simp only at hb
        omega

theorem History.step_apart (F : Family s) (i i' : Fin n) (r r' : Reap n)
    (hr : (s'.thread i).pc.reaps = some r) (hr' : (s'.thread i').pc.reaps = some r')
    (hb : r.birth = r'.birth) : i = i' := by
  -- one that has just been found was there, the others were not
  rcases P.reaps_turns F hs hr with hr | ⟨pp, hc, hz, -, rfl, -⟩ <;>
    rcases P.reaps_turns F hs hr' with hr' | ⟨pp', hc', hz', -, rfl, -⟩
  · exact R.apart i i' r r' hr hr' hb
  · exact absurd hb.symm ((R.found i r (.inr hr)).2.2 pp' (by rw [hz']; exact nofun))
  · exact absurd hb ((R.found i' r' (.inr hr')).2.2 pp (by rw [hz]; exact nofun))
  · rw [hc] at hc'
    cases hc'
    rfl

theorem History.step_unreturned (F : Family s) (i : Fin n) (r : Reap n)
    (hr : (s'.thread i).pc.reaps = some r) : ∀ w ∈ s'.waits, w.2.birth ≠ r.birth := by
  have hold : ∀ w ∈ s.waits, w.2.birth ≠ r.birth := by
    intro w hw
    rcases P.reaps_turns F hs hr with hr | ⟨pp, -, hz, -, rfl, -⟩
    · exact R.unreturned i r hr w hw
    · exact ((R.found w.1 w.2 (.inl hw)).2.2 pp (by rw [hz]; exact nofun)).symm
  cases P.records hs with
  | stays _ _ _ hw | alloc _ _ _ _ hw | exiting _ _ _ _ _ _ _ _ hw =>
    rw [hw]
    exact hold
  | @waited k r' hc hp hp' _ _ _ hw =>
    rw [hw]
    refine List.forall_mem_cons.mpr ⟨fun hb => ?_, hold⟩
    have hki : k ≠ i := by
      rintro rfl
      rw [hp'] at hr
      cases hr
    have hrk : (s.thread k).pc.reaps = some r' := by rw [hp]; rfl
    rcases P.reaps_turns F hs hr with hr | ⟨pp, hc', -⟩
    · exact hki (R.apart k i r' r hrk hr hb)
    · rw [hc] at hc'
      cases hc'
      exact hki rfl

theorem History.step_waits : (s'.waits.map fun w => w.2.birth).Nodup := by
  cases P.records hs with
  | stays _ _ _ hw | alloc _ _ _ _ hw | exiting _ _ _ _ _ _ _ _ hw =>
    rw [hw]
    exact R.waits
  | @waited i r _ hp _ _ _ _ hw =>
    rw [hw, List.map_cons, List.nodup_cons]
    refine ⟨fun hmem => ?_, R.waits⟩
    obtain ⟨w, hw, hb⟩ := List.mem_map.mp hmem
    exact R.unreturned i r (by rw [hp]; rfl) w hw hb

theorem History.step (F : Family s) : History s' where
  birth := R.step_birth P hs
  inj := R.step_inj P hs
  exited := R.step_exited P hs
  leaving := R.step_leaving P hs
  zombie := R.step_zombie P hs
  gone := R.step_gone P hs
  once := R.step_once P hs
  found := R.step_found P hs F
  apart := R.step_apart P hs F
  unreturned := R.step_unreturned P hs F
  waits := R.step_waits P hs

end Step

omit [DecidableEq H] in
theorem History.of_boot (hb : Boot s) : History s := by
  have hpc := hb.thread_of (T := fun t => t.pc.Plain) trivial trivial
  have hreaps : ∀ i r, (s.thread i).pc.reaps ≠ some r := by
    intro i r hr
    rw [Pc.reaps_plain (hpc i)] at hr
    cases hr
  refine ⟨fun j _ => ?_, fun j k hj hk _ => ?_, fun e he => ?_, fun i x hx => ?_, fun j hz => ?_,
    fun e he => ?_, ?_, fun i r hr => ?_, fun i _ r _ hr => absurd hr (hreaps i r),
    fun i r hr => absurd hr (hreaps i r), ?_⟩
  · rw [hb.birth, hb.births]
    exact Nat.one_pos
  · rw [hb.live hj, hb.live hk]
  · rw [hb.exits] at he
    cases he
  · rw [Pc.leaving_plain (hpc i)] at hx
    cases hx
  · have hj := hb.live (j := j) (by rw [hz]; exact nofun)
    rw [hj, hb.init] at hz
    cases hz
  · rw [hb.exits] at he
    cases he
  · rw [hb.exits]
    exact List.nodup_nil
  · rcases hr with hr | hr
    · rw [hb.waits] at hr
      cases hr
    · exact absurd hr (hreaps i r)
  · rw [hb.waits]
    exact List.nodup_nil

theorem History.of_reach {ok : Sys n H M → H × Input M → Prop}
    (hr : Reach Boot Sched.step ok s) : History s :=
  hr.invariant_of (fun _ => .of_boot) fun _ _ _ hr R _ hs =>
    R.step (.of_reach hr) (.of_step hs) (.of_reach hr)

/-! ## Looking at a zombie -/

omit [DecidableEq H] in
theorem Placed.top_waitChild (P : Placed s) {pp : Fin n} (hp : (s.thread i).pc = .waitChild addr pp) :
    (s.thread i).top = .waitChild addr pp ∧ (s.thread i).intr = none := by
  have hn : (s.thread i).intr = none := by
    by_contra hne
    obtain ⟨q, hq⟩ := Option.ne_none_iff_exists'.mp hne
    have := (P.base i q hq).2
    rw [hp] at this
    cases this
  exact ⟨by rw [Thread.top, hn]; exact hp, hn⟩

theorem Placed.wait_fault (P : Placed s) {pp : Fin n} (hc : s.ctl h = .thread i)
    (hp : (s.thread i).pc = .waitChild addr pp) (haddr : addr ≠ 0)
    (hz : (s.slot pp).state = .zombie) (hs : Sched.step s (h, .fault) = .next s') :
    s'.slot = s.slot ∧ (s'.thread i).pc = .waitFault pp := by
  obtain ⟨htop, hn⟩ := P.top_waitChild hp
  obtain ⟨a, rfl⟩ := Nat.exists_eq_succ_of_ne_zero haddr
  have hm : code s i .fault (s.thread i).top =
      .next ⟨.acquire (.proc pp), .none, .waitFault pp⟩ := by
    simp [htop, code, hz, Sched.move]
  simp only [Sched.step, hc] at hs
  obtain ⟨-, rfl⟩ := (runThread_eq (by rw [htop]; rfl) hm).mp hs
  exact ⟨by simp [Eff.apply], by simp [goto_pc_of_none hn]⟩

theorem Placed.wait_takes (P : Placed s) {pp : Fin n} (hc : s.ctl h = .thread i)
    (hp : (s.thread i).pc = .waitChild addr pp) (hz : (s.slot pp).state = .zombie)
    (hl : s.lock (.proc pp) = none) : ∃ s', Sched.step s (h, .go) = .next s' ∧
      (s'.thread i).pc = .waitReap
        ⟨pp, s.birth pp, (s.slot pp).pid, (s.slot pp).xstate, (s.slot pp).parent⟩ := by
  obtain ⟨htop, hn⟩ := P.top_waitChild hp
  have hm : code s i .go (s.thread i).top = .next ⟨.acquire (.proc pp), .free pp,
      .waitReap ⟨pp, s.birth pp, (s.slot pp).pid, (s.slot pp).xstate, (s.slot pp).parent⟩⟩ := by
    simp [htop, code, hz, Sched.move]
  have hrun := (@runThread_eq _ _ _ _ s _ h .go i _ (by rw [htop]; rfl) hm).mpr ⟨hl, rfl⟩
  have hstep : Sched.step s (h, .go) = runThread h i .go s := by simp only [Sched.step, hc]
  exact ⟨_, hstep.trans hrun, by simp [goto_pc_of_none hn]⟩

/-- **Parents and reaping.** In every state of every run a process has a parent that has not
    exited, whether `wait_lock` is free or not. Nobody exits twice; what a `wait` has returned is
    the pid and the status of a process that has exited, its parent was the one that waited, and
    nobody is returned twice. A zombie is there, with its pid and its status, until a `wait` of
    its parent takes it: one whose `copyout` fails changes no slot, one that does not takes it. -/
theorem parents_and_reaping (hr : Reach Boot Sched.step (fun _ _ => True) s) :
    (∀ j, j ≠ s.initproc → (s.slot j).state ≠ .unused → (s.slot j).state ≠ .used →
      ∃ p, (s.slot j).parent = some p ∧ (s.slot p).state ≠ .unused ∧ (s.slot p).state ≠ .zombie) ∧
    ((s.exits.map Exited.birth).Nodup ∧ (s.waits.map fun w => w.2.birth).Nodup ∧
      ∀ i r, (i, r) ∈ s.waits → ⟨r.birth, r.pid, r.status⟩ ∈ s.exits ∧ r.parent = some i) ∧
    (∀ a s' j, Sched.step s a = .next s' → (s.slot j).state = .zombie →
      (s'.slot j).state = .zombie ∧ (s'.slot j).pid = (s.slot j).pid ∧
        (s'.slot j).xstate = (s.slot j).xstate ∨
      ∃ i, (s.slot j).parent = some i ∧ (s'.thread i).pc = .waitReap
        ⟨j, s.birth j, (s.slot j).pid, (s.slot j).xstate, some i⟩) ∧
    (∀ h i addr pp, s.ctl h = .thread i → (s.thread i).pc = .waitChild addr pp →
      (s.slot pp).state = .zombie → (∀ s', addr ≠ 0 → Sched.step s (h, .fault) = .next s' →
        s'.slot = s.slot ∧ (s'.thread i).pc = .waitFault pp) ∧
      (s.lock (.proc pp) = none → ∃ s', Sched.step s (h, .go) = .next s' ∧
        (s'.thread i).pc = .waitReap
          ⟨pp, s.birth pp, (s.slot pp).pid, (s.slot pp).xstate, some i⟩)) := by
  have P := Placed.of_reach hr
  have F := Family.of_reach hr
  have R := History.of_reach hr
  refine ⟨fun j hj hu hus => ?_, ⟨R.once, R.waits, fun i r hw => ?_⟩, fun a s' j hs hz => ?_,
    fun h i addr pp hc hp hz => ⟨fun s' ha hs => P.wait_fault hc hp ha hz hs, fun hl => ?_⟩⟩
  · obtain ⟨p, hp⟩ := Option.ne_none_iff_exists'.mp (F.child j hj hu hus)
    have ha := F.parent j p hp
    refine ⟨p, hp, fun hst => ?_, fun hst => ?_⟩ <;> rw [hst] at ha <;> exact ha
  · obtain ⟨he, hpar, -⟩ := R.found i r (.inl hw)
    exact ⟨he, hpar⟩
  · refine (P.zombie_stays (.of_step hs) hz).imp_right ?_
    rintro ⟨-, i, addr, hp, hp'⟩
    have hpar := F.looks i j (by rw [hp]; rfl)
    rw [hpar] at hp'
    exact ⟨i, hpar, hp'⟩
  · have htakes := P.wait_takes hc hp hz hl
    rw [F.looks i pp (by rw [hp]; rfl)] at htakes
    exact htakes

def onHart (h : H) (as : List (Input M)) : List (H × Input M) := as.map fun a => (h, a)

/-- On two harts `init` makes a child, the child calls `exit(7)`, and `init` waits for it. -/
theorem parents_and_reaping_child : ∃ s : Sys 2 Bool noMonitor,
    Reach Boot Sched.step (fun _ _ => True) s ∧ (s.thread 0).pc.returned = some 2 ∧
      ∃ r, (0, r) ∈ s.waits ∧ r.pid = 2 ∧ r.status = 7 ∧ ⟨r.birth, 2, 7⟩ ∈ s.exits := by
  have hrun : (exec Sched.step (fun _ _ => True) (Sys.boot (fun _ => ()) 0 : Sys 2 Bool noMonitor)
      (onHart true ([.go, .go, .fork] ++ List.replicate 8 .go) ++
        onHart false ([.go, .go, .go, .go, .exit 7] ++ List.replicate 12 .go) ++
        onHart true (.wait 0 :: List.replicate 6 .go))).any
      (fun s => (s.thread 0).pc.returned = some 2 ∧
        s.waits.map (fun w => (w.1, w.2.pid, w.2.status)) = [(0, 2, 7)]) = true := by
    decide +kernel
  obtain ⟨s, hr, hq⟩ := Reach.exec_any (Sys.boot_spec _ _) hrun
  obtain ⟨hret, hw⟩ := of_decide_eq_true hq
  obtain ⟨⟨i, r⟩, hmem, heq⟩ : ∃ w ∈ s.waits, (w.1, w.2.pid, w.2.status) = (0, 2, 7) :=
    List.mem_map.mp (by rw [hw]; exact List.mem_singleton.mpr rfl)
  simp only [Prod.mk.injEq] at heq
  obtain ⟨rfl, hpid, hst⟩ := heq
  have he := ((parents_and_reaping hr).2.1.2.2 0 r hmem).1
  rw [hpid, hst] at he
  exact ⟨s, hr, hret, r, hmem, hpid, hst, he⟩

end ZeptOS.Sched
