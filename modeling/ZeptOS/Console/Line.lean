import ZeptOS.Console.Model
import ZeptOS.Lib.Ring
import ZeptOS.Lib.Run

/-!
# The console is a line discipline

What the driver is for: a list of bytes that reads may have, and a list that is still being edited.
`Line` is that machine. `Holds` ties the ring to it, and one interrupt and one read keep it; so the
driver and the machine give the same outputs, whatever is typed and whoever reads.

Nothing is said of the echo, nor of when a reader that sleeps is woken: `Sched.Wakeup` is about that.
-/

namespace ZeptOS.Console

open Lib Function

variable {l : Line} {ed : List UInt8} {c x : UInt8} {left : Nat} {dst : UInt64} {ok : UInt64 → Bool}

/-! ## The line discipline -/

structure Line where
  committed : List UInt8
  edited : List UInt8

def Line.undelivered (l : Line) : Nat := l.committed.length + l.edited.length

def Line.commit (l : Line) : Line := ⟨l.committed ++ l.edited, []⟩

def Line.type (c : UInt8) (l : Line) : Line :=
  if c = C 'P' then l
  else if c = C 'U' then { l with edited := [] }
  else if c = C 'H' ∨ c = DEL then { l with edited := l.edited.dropLast }
  else if c = 0 ∨ INPUT_BUF_SIZE ≤ l.undelivered then l
  else
    let c := if c = CR then LF else c
    let l := { l with edited := l.edited ++ [c] }
    if c = LF ∨ c = C 'D' ∨ l.undelivered = INPUT_BUF_SIZE then l.commit else l

def place : UInt64 → List UInt8 → List (UInt64 × UInt8)
  | _, [] => []
  | dst, c :: cs => (dst, c) :: place (dst + 1) cs

def plain (c : UInt8) : Bool := c ≠ LF ∧ c ≠ C 'D'

/-- A read that has got `target - left` bytes already: it delivers what is committed up to and
including the end of the line, or up to the end of the file, which is left for the next read
unless nothing has been delivered. If there is neither it waits for more. -/
def Line.read (killed : Bool) (ok : UInt64 → Bool) (target left : Nat) (dst : UInt64) (l : Line) :
    Line × Reader × Output :=
  let body := l.committed.takeWhile plain
  if left ≤ body.length then
    ({ l with committed := l.committed.drop left }, .idle, ⟨place dst (body.take left), some target⟩)
  else
    let left := left - body.length
    match l.committed.drop body.length with
    | [] =>
      let l := { l with committed := [] }
      if killed then (l, .idle, ⟨place dst body, some (-1)⟩)
      else (l, .asleep (dst + .ofNat body.length) left target ok, ⟨place dst body, none⟩)
    | c :: rest =>
      if c = LF then
        ({ l with committed := rest }, .idle,
          ⟨place dst (body ++ [c]), some (target - left + 1)⟩)
      else
        ({ l with committed := if left < target then c :: rest else rest }, .idle,
          ⟨place dst body, some (target - left)⟩)

structure Discipline (P : Type) where
  line : Line
  reader : P → Reader

variable {P : Type} [DecidableEq P]

def Discipline.step (s : Discipline P) : Input P → Discipline P × Output
  | .intr c => ({ s with line := s.line.type c }, quiet)
  | .read p dst n ok killed =>
    match s.reader p with
    | .idle =>
      let (line, rd, o) := s.line.read killed ok n.toNat n.toNat dst
      (⟨line, Function.update s.reader p rd⟩, o)
    | .asleep _ _ _ _ => (s, quiet)
  | .wake p killed =>
    match s.reader p with
    | .idle => (s, quiet)
    | .asleep dst left target ok =>
      let (line, rd, o) := s.line.read killed ok target left dst
      (⟨line, Function.update s.reader p rd⟩, o)

def Discipline.init : Discipline P := ⟨⟨[], []⟩, fun _ => .idle⟩

/-! ## What the ring holds -/

structure Holds (s : Cons) (l : Line) : Prop where
  w : s.w = s.r + .ofNat l.committed.length
  e : s.e = s.w + .ofNat l.edited.length
  window : Window s.buf s.r.toNat (l.committed ++ l.edited)
  plain : LF ∉ l.edited
  full : l.undelivered = INPUT_BUF_SIZE → l.edited = []

theorem cell_add (i : UInt32) (k : Nat) :
    cell (i + .ofNat k) = Fin.ofNat INPUT_BUF_SIZE (i.toNat + k) := by
  refine Fin.ext ?_
  show (i + .ofNat k).toNat % 128 = (i.toNat + k) % 128
  rw [UInt32.toNat_add, UInt32.toNat_ofNat']
  omega

theorem toNat_add_one (i : UInt32) : (i.toNat + 1) % INPUT_BUF_SIZE = (i + 1).toNat % INPUT_BUF_SIZE := by
  rw [UInt32.toNat_add]
  show (i.toNat + 1) % 128 = (i.toNat + 1) % 2 ^ 32 % 128
  omega

theorem add_sub_toNat (i : UInt32) {k : Nat} (hk : k ≤ INPUT_BUF_SIZE) :
    (i + .ofNat k - i).toNat = k := by
  have hk' : k ≤ 128 := hk
  rw [UInt32.toNat_sub, UInt32.toNat_add, UInt32.toNat_ofNat']
  have hi := i.toNat_lt
  omega

theorem ofNat_succ (k : Nat) : UInt32.ofNat (k + 1) = .ofNat k + 1 := UInt32.ofNat_add k 1

variable {cm : List UInt8}

section Holds

variable {s : Cons}

theorem Holds.room (h : Holds s l) : l.undelivered ≤ INPUT_BUF_SIZE := by
  have hr := h.window.room
  rwa [List.length_append] at hr

theorem Holds.e_eq (h : Holds s l) : s.e = s.r + .ofNat l.undelivered := by
  rw [h.e, h.w, Line.undelivered, UInt32.ofNat_add, UInt32.add_assoc]

theorem Holds.w_sub_r (h : Holds s l) : (s.w - s.r).toNat = l.committed.length := by
  have hr := h.room
  unfold Line.undelivered at hr
  rw [h.w, add_sub_toNat _ (by omega)]

theorem Holds.e_sub_r (h : Holds s l) : (s.e - s.r).toNat = l.undelivered := by
  rw [h.e_eq, add_sub_toNat _ h.room]

theorem Holds.e_sub_w (h : Holds s l) : (s.e - s.w).toNat = l.edited.length := by
  have hr := h.room
  unfold Line.undelivered at hr
  rw [h.e, add_sub_toNat _ (by omega)]

theorem Holds.r_eq_w_iff (h : Holds s l) : s.r = s.w ↔ l.committed = [] := by
  constructor
  · intro hrw
    have hlen := h.w_sub_r
    rw [hrw, UInt32.sub_self] at hlen
    exact List.length_eq_zero_iff.mp hlen.symm
  · intro hnil
    rw [h.w, hnil]
    exact (UInt32.add_zero _).symm

theorem Holds.e_eq_w_iff (h : Holds s l) : s.e = s.w ↔ l.edited = [] := by
  constructor
  · intro hew
    have hlen := h.e_sub_w
    rw [hew, UInt32.sub_self] at hlen
    exact List.length_eq_zero_iff.mp hlen.symm
  · intro hnil
    rw [h.e, hnil]
    exact UInt32.add_zero _

/-! ## One character -/

theorem Holds.e_sub_one (h : Holds s ⟨cm, ed ++ [x]⟩) : s.e - 1 = s.w + .ofNat ed.length := by
  rw [h.e, List.length_append, List.length_singleton, ofNat_succ, ← UInt32.add_assoc,
    UInt32.add_sub_cancel]

theorem Holds.last (h : Holds s ⟨cm, ed ++ [x]⟩) : s.buf (cell (s.e - 1)) = x := by
  have hwin := h.window
  rw [← List.append_assoc] at hwin
  rw [h.e_sub_one, h.w, UInt32.add_assoc, ← UInt32.ofNat_add, cell_add]
  simpa using hwin.last

theorem Holds.backspace (h : Holds s ⟨cm, ed ++ [x]⟩) : Holds { s with e := s.e - 1 } ⟨cm, ed⟩ := by
  have hwin := h.window
  rw [← List.append_assoc] at hwin
  refine ⟨h.w, h.e_sub_one, hwin.left, fun hm => h.plain (List.mem_append_left _ hm), fun hf => ?_⟩
  have hroom := h.room
  simp only [Line.undelivered, List.length_append, List.length_singleton] at hroom hf
  omega

theorem Holds.killLoop (k : Nat) {s : Cons}
    (h : Holds s ⟨cm, ed⟩) (hk : ed.length = k) : Holds (killLoop k s) ⟨cm, []⟩ := by
  induction k generalizing s ed with
  | zero =>
    obtain rfl := List.length_eq_zero_iff.mp hk
    exact h
  | succ k ih =>
    -- what was typed last is no end of a line, so it goes
    have hne : ed ≠ [] := List.ne_nil_of_length_eq_add_one hk
    obtain ⟨ed, x, rfl⟩ := (List.eq_nil_or_concat' ed).resolve_left hne
    have hx : x ≠ LF := by
      rintro rfl
      exact h.plain (by simp)
    rw [Console.killLoop, if_pos ⟨fun he => hne (h.e_eq_w_iff.mp he), by rwa [h.last]⟩]
    exact ih h.backspace (by simpa using hk)

theorem Holds.push (h : Holds s l) (hroom : l.undelivered < INPUT_BUF_SIZE) (c : UInt8) :
    Window (update s.buf (cell s.e) c) s.r.toNat (l.committed ++ (l.edited ++ [c])) ∧
      s.e + 1 = s.w + .ofNat (l.edited ++ [c]).length ∧
      s.e + 1 = s.r + .ofNat (l.undelivered + 1) := by
  have hcell : cell s.e = Fin.ofNat _ (s.r.toNat + (l.committed ++ l.edited).length) := by
    rw [h.e_eq, cell_add, List.length_append, Line.undelivered]
  refine ⟨?_, ?_, ?_⟩
  · rw [hcell, ← List.append_assoc]
    exact h.window.push (by rwa [List.length_append]) c
  · rw [h.e, List.length_append, List.length_singleton, ofNat_succ, UInt32.add_assoc]
  · rw [h.e_eq, ofNat_succ, UInt32.add_assoc]

/-- **One interrupt.** -/
theorem Holds.type (h : Holds s l) (c : UInt8) : Holds (consoleintr c s) (l.type c) := by
  obtain ⟨cm, ed⟩ := l
  unfold consoleintr Line.type
  split
  · exact h
  split
  · rw [killLine, h.e_sub_w]
    exact h.killLoop _ rfl
  split
  · rcases List.eq_nil_or_concat' ed with rfl | ⟨ed, x, rfl⟩
    · rw [if_neg (not_not.mpr (h.e_eq_w_iff.mpr rfl))]
      exact h
    · rw [if_pos fun he => absurd (h.e_eq_w_iff.mp he) (by simp)]
      simpa using h.backspace
  rw [h.e_sub_r]
  by_cases hdrop : c = 0 ∨ INPUT_BUF_SIZE ≤ Line.undelivered ⟨cm, ed⟩
  · rw [if_pos hdrop, if_neg (by rintro ⟨h0, hlt⟩; exact hdrop.elim h0 (Nat.not_le.mpr hlt))]
    exact h
  · obtain ⟨h0, hlt⟩ := not_or.mp hdrop
    rw [if_neg hdrop, if_pos ⟨h0, Nat.not_le.mp hlt⟩]
    generalize (if c = CR then LF else c) = c
    obtain ⟨hwin, hew, her⟩ := h.push (Nat.not_le.mp hlt) c
    have hlen : (s.e + 1 - s.r).toNat = Line.undelivered ⟨cm, ed ++ [c]⟩ := by
      rw [her, add_sub_toNat _ (Nat.not_le.mp hlt)]
      simp [Line.undelivered, Nat.add_assoc]
    simp only [hlen]
    split
    · next hcommit =>
      refine ⟨?_, (UInt32.add_zero _).symm, by simpa [Line.commit] using hwin, nofun, fun _ => rfl⟩
      rw [her]
      simp [Line.commit, Line.undelivered, Nat.add_assoc]
    · next hstay =>
      obtain ⟨hLF, -, hfull⟩ : c ≠ LF ∧ c ≠ C 'D' ∧ _ := by simpa only [not_or] using hstay
      refine ⟨h.w, hew, hwin, ?_, fun hf => absurd hf hfull⟩
      simpa using ⟨h.plain, Ne.symm hLF⟩

/-! ## One read -/

theorem Holds.pop (h : Holds s ⟨c :: cm, ed⟩) :
    s.buf (cell s.r) = c ∧ Holds { s with r := s.r + 1 } ⟨cm, ed⟩ := by
  refine ⟨h.window.head, ?_, h.e, h.window.tail.of_mod (toNat_add_one s.r), h.plain, fun hf => ?_⟩
  · rw [h.w, List.length_cons, ofNat_succ]
    show s.r + (.ofNat cm.length + 1) = s.r + 1 + .ofNat cm.length
    rw [UInt32.add_comm (.ofNat cm.length) 1, UInt32.add_assoc]
  · have hroom := h.room
    simp only [Line.undelivered, List.length_cons] at hroom hf
    omega

section Read

variable {killed : Bool} {target n : Nat}

theorem Line.read_zero : Line.read killed ok target 0 dst l = (l, .idle, ⟨[], some target⟩) := by
  simp [Line.read, place]

theorem Line.read_nil : Line.read killed ok target (n + 1) dst ⟨[], ed⟩ =
    if killed then (⟨[], ed⟩, .idle, ⟨[], some (-1)⟩)
    else (⟨[], ed⟩, .asleep dst (n + 1) target ok, ⟨[], none⟩) := by
  simp [Line.read, place]

theorem Line.read_lf : Line.read killed ok target (n + 1) dst ⟨LF :: cm, ed⟩ =
    (⟨cm, ed⟩, .idle, ⟨[(dst, LF)], some (target - n)⟩) := by
  have hplain : Console.plain LF = false := by decide
  simp [Line.read, place, hplain]
  omega

theorem Line.read_eof : Line.read killed ok target (n + 1) dst ⟨C 'D' :: cm, ed⟩ =
    (⟨if n + 1 < target then C 'D' :: cm else cm, ed⟩, .idle,
      ⟨[], some (target - (n + 1 : Nat))⟩) := by
  have hplain : Console.plain (C 'D') = false := by decide
  have hne : C 'D' ≠ LF := by decide
  simp [Line.read, place, hplain, hne]

theorem add_succ_ofNat (d : UInt64) (k : Nat) : d + .ofNat (k + 1) = d + 1 + .ofNat k := by
  rw [UInt64.ofNat_add, UInt64.add_comm (.ofNat k), ← UInt64.add_assoc]
  rfl

theorem Line.read_plain (hc : Console.plain c = true) :
    Line.read killed ok target (n + 1) dst ⟨c :: cm, ed⟩ =
      let (l, rd, o) := Line.read killed ok target n (dst + 1) ⟨cm, ed⟩
      (l, rd, o.store dst c) := by
  simp only [Line.read, List.takeWhile_cons, hc, if_true, List.length_cons, Nat.add_le_add_iff_right,
    List.drop_succ_cons, Nat.add_sub_add_right, List.take_succ_cons, place, add_succ_ofNat]
  split
  · rfl
  split
  · split <;> rfl
  · split <;> rfl

/-- **One read**, from where it has the lock to where it sleeps or returns. -/
theorem Holds.read (killed : Bool) (target n : Nat) {s : Cons} (h : Holds s l)
    (hok : ∀ k < n, ok (dst + .ofNat k) = true) :
    Holds (readLoop killed ok target n dst s).1 (l.read killed ok target n dst).1 ∧
      (readLoop killed ok target n dst s).2 = (l.read killed ok target n dst).2 := by
  obtain ⟨cm, ed⟩ := l
  induction n generalizing dst s cm with
  | zero =>
    rw [Line.read_zero]
    exact ⟨h, rfl⟩
  | succ n ih =>
    unfold readLoop
    cases cm with
    | nil =>
      rw [if_pos (h.r_eq_w_iff.mpr rfl), Line.read_nil]
      cases killed with
      | true => exact ⟨h, rfl⟩
      | false => exact ⟨h, rfl⟩
    | cons c cm =>
      rw [if_neg fun hrw => absurd (h.r_eq_w_iff.mp hrw) (by simp)]
      obtain ⟨hc, hpop⟩ := h.pop
      simp only [hc]
      by_cases heof : c = C 'D'
      · subst heof
        rw [if_pos rfl, Line.read_eof]
        refine ⟨?_, rfl⟩
        split
        · -- the end of the file is put back
          rw [UInt32.add_sub_cancel]
          exact h
        · exact hpop
      · have hok0 : ok dst = true := by simpa using hok 0 (Nat.succ_pos n)
        rw [if_neg heof, if_neg (by simp [hok0])]
        by_cases hlf : c = LF
        · subst hlf
          rw [if_pos rfl, Line.read_lf]
          exact ⟨hpop, rfl⟩
        · rw [if_neg hlf, Line.read_plain (by simp [Console.plain, hlf, heof])]
          have hok' (k : Nat) (hk : k < n) : ok (dst + 1 + .ofNat k) = true := by
            rw [← add_succ_ofNat]
            exact hok (k + 1) (Nat.succ_lt_succ hk)
          obtain ⟨hH, ho⟩ := ih hok' cm hpop
          refine ⟨hH, ?_⟩
          simp only [ho]

theorem Line.read_asleep {dst' : UInt64} {left' target' : Nat} {ok' : UInt64 → Bool}
    (hok : ∀ k < left, ok (dst + .ofNat k) = true)
    (h : (l.read killed ok target left dst).2.1 = .asleep dst' left' target' ok') :
    ∀ k < left', ok' (dst' + .ofNat k) = true := by
  unfold Line.read at h
  simp only at h
  split at h
  · exact nomatch h
  split at h
  · split at h
    · exact nomatch h
    · obtain ⟨rfl, rfl, rfl, rfl⟩ := Reader.asleep.inj h
      intro k hk
      rw [UInt64.add_assoc, ← UInt64.ofNat_add]
      exact hok _ (by omega)
  · split at h <;> exact nomatch h

end Read

end Holds

/-! ## The driver -/

/-- What a read is given is a buffer that can be written. -/
def Input.Writable : Input P → Prop
  | .intr _ => True
  | .read _ dst n ok _ => ∀ k < n.toNat, ok (dst + .ofNat k) = true
  | .wake _ _ => True

def Reader.Writable : Reader → Prop
  | .idle => True
  | .asleep dst left _ ok => ∀ k < left, ok (dst + .ofNat k) = true

structure Simulates (s : State P) (d : Discipline P) : Prop where
  holds : Holds s.cons d.line
  reader : s.reader = d.reader
  writable : ∀ p, (s.reader p).Writable

variable {s : State P} {d : Discipline P}

theorem Simulates.readLoop (h : Simulates s d) (p : P) (killed : Bool) (target : Nat)
    (hok : ∀ k < left, ok (dst + .ofNat k) = true) : Simulates
      ⟨(readLoop killed ok target left dst s.cons).1,
        update s.reader p (readLoop killed ok target left dst s.cons).2.1⟩
      ⟨(d.line.read killed ok target left dst).1,
        update d.reader p (d.line.read killed ok target left dst).2.1⟩ ∧
    (readLoop killed ok target left dst s.cons).2.2 =
      (d.line.read killed ok target left dst).2.2 := by
  obtain ⟨hH, ho⟩ := h.holds.read killed target left hok
  refine ⟨⟨hH, ?_, fun q => ?_⟩, congrArg Prod.snd ho⟩
  · simp only [ho, h.reader]
  · by_cases hq : q = p
    · subst hq
      simp only [update_self, ho]
      cases hrd : (d.line.read killed ok target left dst).2.1 with
      | idle => trivial
      | asleep dst' left' target' ok' => exact Line.read_asleep hok hrd
    · simp only [update_of_ne hq]
      exact h.writable q

theorem Simulates.step (h : Simulates s d) {i : Input P} (hi : i.Writable) :
    Simulates (step s i).1 (d.step i).1 ∧ (step s i).2 = (d.step i).2 := by
  cases i with
  | intr c => exact ⟨⟨h.holds.type c, h.reader, h.writable⟩, rfl⟩
  | read p dst n ok killed =>
    cases hp : s.reader p with
    | idle =>
      simp only [Console.step, Discipline.step, ← h.reader, hp, consoleread]
      have hR := h.readLoop p killed n.toNat hi
      rwa [← h.reader] at hR
    | asleep dst left target ok =>
      simp only [Console.step, Discipline.step, ← h.reader, hp]
      exact ⟨h, trivial⟩
  | wake p killed =>
    have hw := h.writable p
    cases hp : s.reader p with
    | idle =>
      simp only [Console.step, Discipline.step, ← h.reader, hp]
      exact ⟨h, trivial⟩
    | asleep dst left target ok =>
      rw [hp] at hw
      simp only [Console.step, Discipline.step, ← h.reader, hp]
      have hR := h.readLoop p killed target hw
      rwa [← h.reader] at hR

omit [DecidableEq P] in
theorem Simulates.init : Simulates (init : State P) .init where
  holds := ⟨rfl, rfl, Window.nil _ _, nofun, fun _ => rfl⟩
  reader := rfl
  writable _ := trivial

/-- The indices are in order, as distances, and a full buffer is committed. -/
structure InOrder (s : Cons) : Prop where
  w_le_e : (s.w - s.r).toNat ≤ (s.e - s.r).toNat
  e_le : (s.e - s.r).toNat ≤ INPUT_BUF_SIZE
  full : (s.e - s.r).toNat = INPUT_BUF_SIZE → s.w = s.e

theorem Holds.inOrder {s : Cons} (h : Holds s l) : InOrder s where
  w_le_e := by
    rw [h.w_sub_r, h.e_sub_r]
    exact Nat.le_add_right _ _
  e_le := by
    rw [h.e_sub_r]
    exact h.room
  full hf := by
    rw [h.e_sub_r] at hf
    exact (h.e_eq_w_iff.mpr (h.full hf)).symm

/-- **The console is a line discipline.** Whatever is typed and whoever reads, into buffers that can
be written, the driver gives out what the discipline does, holds its two lists in the ring and has
its indices in order. -/
theorem console_discipline (is : List (Input P)) (hw : ∀ i ∈ is, i.Writable) :
    (feed step init is).2 = (feed Discipline.step .init is).2 ∧
      Simulates (feed step init is).1 (feed Discipline.step .init is).1 ∧
      InOrder (feed step init is).1.cons := by
  have hstep (s : State P) (d : Discipline P) (i : Input P) (h : Simulates s d) (hi : i.Writable) :
      Simulates (step s i).1 (d.step i).1 ∧ (step s i).2 = (d.step i).2 := h.step hi
  obtain ⟨hS, ho⟩ := feed_simulates hstep .init hw
  exact ⟨ho, hS, hS.holds.inOrder⟩

/-- Somebody types `ab`, a backspace, a return and an end of file, while a process reads. -/
def typed : List (Input Unit) :=
  [.intr 97, .read () 0 9 (fun _ => true) false, .intr 98, .intr DEL, .intr CR, .wake () false,
    .intr (C 'D'), .read () 0 9 (fun _ => true) false]

theorem console_discipline_typed : (feed step init typed).2 = (feed Discipline.step .init typed).2 ∧
      Simulates (feed step init typed).1 (feed Discipline.step .init typed).1 ∧
      InOrder (feed step init typed).1.cons :=
  console_discipline typed (by simp [typed, Input.Writable])

example : (feed step init typed).2.filterMap (·.result) = [2, 0] := by decide

end ZeptOS.Console
