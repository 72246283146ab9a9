import ZeptOS.Fs.Names

/-!
# Paths

`skipelem` takes a path apart: its elements are the longest parts of it without a `/`, each cut to
`DIRSIZ` bytes. `namex` follows them from one directory to the next, so what `namei` answers is a matter of
the elements and of the directories on the disk alone, and it leaves the disk as it is
(`path_follows_elements`).

A lookup runs alone from end to end. What becomes of it when another process unlinks a directory
between two of its steps is not covered: there is then no one disk that the answer is about.
-/

namespace ZeptOS.Fs

open Lib Lib.Code Function

variable {w path : List UInt8} {v : Vnode} {c : Slot}

/-! ## Elements -/

def elements (path : List UInt8) : List (List UInt8) :=
  ((path.splitOnP (· = 47)).filter (· ≠ [])).map (List.take DIRSIZ)

theorem elements_slash (path : List UInt8) : elements (47 :: path) = elements path := by
  simp [elements, List.splitOnP_cons_eq_if_modifyHead]

theorem elements_slashes (path : List UInt8) : elements (path.dropWhile (· = 47)) = elements path := by
  induction path with
  | nil => rfl
  | cons c path ih =>
    by_cases hc : c = 47
    · rw [List.dropWhile_cons_of_pos (by simpa using hc), ih, hc, elements_slash]
    · rw [List.dropWhile_cons_of_neg (by simpa using hc)]

theorem elements_append {rest : List UInt8} (hw : w ≠ []) (hno : ∀ c ∈ w, c ≠ 47)
    (hrest : rest = [] ∨ rest.head? = some 47) :
    elements (w ++ rest) = w.take DIRSIZ :: elements rest := by
  have hone : w.splitOnP (· = 47) = [w] := List.splitOnP_eq_singleton (by simpa using hno)
  cases rest with
  | nil => simp [elements, hone, hw]
  | cons c rest =>
    obtain rfl : c = 47 := Option.some.inj (hrest.resolve_left (List.cons_ne_nil _ _))
    rw [elements_slash, elements, List.splitOnP_append_cons _ _ (by decide), hone]
    simp [elements, hw]

theorem elements_cons {c : UInt8} (hc : c ≠ 47) : elements (c :: path) =
    ((c :: path).takeWhile (· ≠ 47)).take DIRSIZ :: elements ((c :: path).dropWhile (· ≠ 47)) := by
  have hw : (c :: path).takeWhile (· ≠ 47) ≠ [] := by simp [hc]
  have hno : ∀ x ∈ (c :: path).takeWhile (· ≠ 47), x ≠ 47 := fun x hx => by
    simpa using List.all_eq_true.mp List.all_takeWhile x hx
  have hrest : (c :: path).dropWhile (· ≠ 47) = [] ∨ ((c :: path).dropWhile (· ≠ 47)).head? = some 47 := by
    have hnot := List.head?_dropWhile_not (fun x : UInt8 => decide (x ≠ 47)) (c :: path)
    cases h : (c :: path).dropWhile (· ≠ 47) with
    | nil => exact .inl rfl
    | cons d rest =>
      rw [h] at hnot
      exact .inr (congrArg some (by simpa using hnot))
  conv_lhs => rw [← List.takeWhile_append_dropWhile (p := (· ≠ 47)) (l := c :: path)]
  exact elements_append hw hno hrest

theorem dropWhile_slash (path : List UInt8) :
    path.dropWhile (· = 47) = [] ∨ ∃ c rest, path.dropWhile (· = 47) = c :: rest ∧ c ≠ 47 := by
  cases h : path.dropWhile (· = 47) with
  | nil => exact .inl rfl
  | cons c rest =>
    have hnot := List.head?_dropWhile_not (fun x : UInt8 => decide (x = 47)) path
    rw [h] at hnot
    exact .inr ⟨c, rest, rfl, by simpa using hnot⟩

/-- **`skipelem`** takes the first element off. -/
theorem skipelem_spec (path : List UInt8) : match skipelem path with
    | none => elements path = []
    | some (name, rest) => elements path = name :: elements rest ∧ rest.length < path.length ∧
        (elements rest = [] → rest = []) := by
  have hle (p : UInt8 → Bool) (l : List UInt8) : (l.dropWhile p).length ≤ l.length :=
    (List.dropWhile_suffix p).length_le
  have hpath := hle (· = 47) path
  unfold skipelem
  rw [← elements_slashes path]
  rcases dropWhile_slash path with h | ⟨c, q, h, hc⟩
  · rw [if_pos h, h]
    rfl
  · rw [h] at hpath
    have hlt : ((c :: q).dropWhile (· ≠ 47)).length < (c :: q).length := by
      rw [List.dropWhile_cons_of_pos (by simpa using hc)]
      exact Nat.lt_succ_of_le (hle _ q)
    have hrest := hle (· = 47) ((c :: q).dropWhile (· ≠ 47))
    rw [h, if_neg (by simp)]
    refine ⟨?_, by omega, fun hnil => ?_⟩
    · rw [elements_slashes]
      exact elements_cons hc
    · rcases dropWhile_slash ((c :: q).dropWhile (· ≠ 47)) with h' | ⟨d, r, h', hd⟩
      · exact h'
      · rw [h', elements_cons hd] at hnil
        exact absurd hnil (List.cons_ne_nil _ _)

/-! ## `skipelem` in memory -/

/-- `while(c(*path)) path++;` -/
def scan (c : UInt8 → Bool) (m : Bytes) : Nat → Nat → Nat
  | 0, path => path
  | n + 1, path => if c (m path) then scan c m n (path + 1) else path

def skipelemAt (m : Bytes) (fuel path : Nat) (name : Bytes) : Nat × Bytes :=
  let path := scan (· = 47) m fuel path
  if m path = 0 then (0, name)
  else
    let s := path
    let path := scan (fun c => c ≠ 47 ∧ c ≠ 0) m fuel path
    let len := path - s
    let name :=
      if len ≥ DIRSIZ then name.blit 0 (m.slice s DIRSIZ)
      else Function.update (name.blit 0 (m.slice s len)) len 0
    (scan (· = 47) m fuel path, name)

/-- The array has the name, with a zero after it if there is room. -/
def HasName (name : Bytes) (w : List UInt8) : Prop :=
  name.slice 0 w.length = w ∧ w.length ≤ DIRSIZ ∧ (w.length < DIRSIZ → name w.length = 0)

/-- Called again and again, `skipelem` yields these names, and then returns 0. -/
def Yields (m : Bytes) (fuel path : Nat) : List (List UInt8) → Prop
  | [] => ∀ name, (skipelemAt m fuel path name).1 = 0
  | w :: ws => ∃ path', path' ≠ 0 ∧ Yields m fuel path' ws ∧
      ∀ name, (skipelemAt m fuel path name).1 = path' ∧ HasName (skipelemAt m fuel path name).2 w

section Memory

variable {m : Bytes} {a fuel : Nat}

theorem scan_str {c d : UInt8 → Bool} (h0 : c 0 = false) (hcd : ∀ x, x ≠ 0 → c x = d x)
    (h : Bytes.Str m a path) (hf : path.length ≤ fuel) :
    scan c m fuel a = a + (path.takeWhile d).length ∧
      Bytes.Str m (a + (path.takeWhile d).length) (path.dropWhile d) := by
  induction path generalizing a fuel with
  | nil =>
    have ha : m a = 0 := h
    refine ⟨?_, h⟩
    cases fuel with
    | zero => rfl
    | succ n => simp [scan, ha, h0]
  | cons x path ih =>
    obtain ⟨ha, hx, hs⟩ := h
    rw [List.length_cons] at hf
    obtain ⟨n, rfl⟩ : ∃ n, fuel = n + 1 := ⟨fuel - 1, by omega⟩
    rw [scan, ha, hcd x hx]
    by_cases hd : d x = true
    · rw [if_pos hd, List.takeWhile_cons_of_pos hd, List.dropWhile_cons_of_pos hd, List.length_cons,
        ← Nat.add_assoc, Nat.add_right_comm]
      exact ih hs (by omega)
    · rw [if_neg hd, List.takeWhile_cons_of_neg hd, List.dropWhile_cons_of_neg hd]
      exact ⟨rfl, ha, hx, hs⟩

theorem slice_str {k : Nat} (h : Bytes.Str m a path) (hk : k ≤ path.length) : m.slice a k = path.take k := by
  induction path generalizing a k with
  | nil =>
    obtain rfl : k = 0 := by simpa using hk
    rfl
  | cons d path ih =>
    cases k with
    | zero => rfl
    | succ k =>
      rw [List.take_succ_cons, ← ih h.2.2 (by simpa using hk), ← h.1, Nat.add_comm, ← Bytes.slice_append]
      rfl

theorem hasName_copied {name : Bytes} (hw : m.slice a w.length = w) :
    HasName (if w.length ≥ DIRSIZ then name.blit 0 (m.slice a DIRSIZ)
      else update (name.blit 0 (m.slice a w.length)) w.length 0) (w.take DIRSIZ) := by
  have hcopy (n i : Nat) (hi : i < n) : name.blit 0 (m.slice a n) (0 + i) = m (a + i) := by
    rw [Bytes.blit_slice, if_pos (by omega), Nat.zero_add, Nat.sub_zero]
  by_cases hlen : w.length ≥ DIRSIZ
  · have htake : m.slice a DIRSIZ = w.take DIRSIZ := by
      rw [← hw, Bytes.slice, Bytes.slice, ← List.map_take, List.take_range, Nat.min_eq_left hlen]
    rw [if_pos hlen, HasName, List.length_take, Nat.min_eq_left hlen]
    exact ⟨(Bytes.slice_congr (hcopy DIRSIZ)).trans htake, le_rfl, fun hc => absurd hc (Nat.lt_irrefl _)⟩
  · rw [if_neg hlen, List.take_of_length_le (by omega)]
    refine ⟨(Bytes.slice_congr fun i hi => ?_).trans hw, by omega, fun _ => update_self ..⟩
    rw [update_of_ne (by omega)]
    exact hcopy _ i hi

/-- **`skipelem`** in memory. -/
theorem skipelemAt_str (h : Bytes.Str m a path) (ha : 0 < a) (hf : path.length ≤ fuel) :
    match skipelem path with
    | none => ∀ name, (skipelemAt m fuel a name).1 = 0
    | some (w, rest) => ∃ a', 0 < a' ∧ Bytes.Str m a' rest ∧
        ∀ name, (skipelemAt m fuel a name).1 = a' ∧ HasName (skipelemAt m fuel a name).2 w := by
  have hle (p : UInt8 → Bool) (l : List UInt8) : (l.dropWhile p).length ≤ l.length :=
    (List.dropWhile_suffix p).length_le
  obtain ⟨h₁, hs₁⟩ := scan_str (d := (· = 47)) (by decide) (fun _ _ => rfl) h hf
  have hq := (hle (· = 47) path).trans hf
  unfold skipelem skipelemAt
  rw [h₁]
  have hb : 0 < a + (path.takeWhile (· = 47)).length := by omega
  generalize a + (path.takeWhile (· = 47)).length = b at hs₁ hb
  by_cases hnil : path.dropWhile (· = 47) = []
  · rw [if_pos hnil]
    simp [hs₁.eq_zero_iff.mpr hnil]
  · obtain ⟨h₂, hs₂⟩ := scan_str (c := fun c => c ≠ 47 ∧ c ≠ 0) (d := (· ≠ 47)) (by decide)
      (fun x hx => by simp [hx]) hs₁ hq
    obtain ⟨h₃, hs₃⟩ := scan_str (d := (· = 47)) (by decide) (fun _ _ => rfl) hs₂ ((hle _ _).trans hq)
    rw [if_neg hnil]
    refine ⟨_, by omega, hs₃, fun name => ?_⟩
    simp only [h₂, h₃, Nat.add_sub_cancel_left, if_neg (mt hs₁.eq_zero_iff.mp hnil)]
    have hpre := List.takeWhile_prefix (l := path.dropWhile (· = 47)) (· ≠ 47)
    refine ⟨trivial, hasName_copied ?_⟩
    rw [slice_str hs₁ hpre.length_le]
    exact (List.prefix_iff_eq_take.mp hpre).symm

theorem yields_elements (h : Bytes.Str m a path) (ha : 0 < a) (hf : path.length ≤ fuel) :
    Yields m fuel a (elements path) := by
  induction hn : path.length using Nat.strong_induction_on generalizing path a with
  | _ n ih =>
    have hspec := skipelem_spec path
    have hat := skipelemAt_str h ha hf
    cases hs : skipelem path with
    | none =>
      rw [hs] at hspec hat
      rw [hspec]
      exact hat
    | some x =>
      obtain ⟨w, rest⟩ := x
      rw [hs] at hspec hat
      obtain ⟨a', ha', hstr, hname⟩ := hat
      rw [hspec.1]
      refine ⟨a', Nat.ne_of_gt ha', ?_, hname⟩
      exact ih _ (hn ▸ hspec.2.1) hstr ha' (by omega) rfl

end Memory

/-! ## Following a path -/

def resolve (vol : Nat → Option Vnode) : Nat → List (List UInt8) → Option Nat
  | i, [] => some i
  | i, w :: ws =>
    match vol i with
    | some v => if v.type = T_DIR then (v.names w).bind (resolve vol · ws) else none
    | none => none

/-- The directory that has, or would have, the last of the names. -/
def resolveParent (vol : Nat → Option Vnode) (i : Nat) (ws : List (List UInt8)) :
    Option (Nat × List UInt8) := do
  let name ← ws.getLast?
  let dp ← resolve vol i ws.dropLast
  if (vol dp).map Vnode.type = some T_DIR then some (dp, name) else none

def walk (vol : Nat → Option Vnode) (parent : Bool) (i : Nat) (ws : List (List UInt8)) :
    Option (Nat × List UInt8) :=
  if parent then resolveParent vol i ws else (resolve vol i ws).map fun j => (j, [])

theorem walk_cons {vol : Nat → Option Vnode} {i : Nat} (hv : vol i = some v) (parent : Bool)
    (w : List UInt8) (ws : List (List UInt8)) : walk vol parent i (w :: ws) =
      if v.type ≠ T_DIR then none
      else if parent = true ∧ ws = [] then some (i, w)
      else (v.names w).bind (walk vol parent · ws) := by
  cases parent with
  | false => by_cases ht : v.type = T_DIR <;> simp [walk, resolve, hv, ht, Option.map_bind]
  | true =>
    cases ws with
    | nil => simp [walk, resolveParent, resolve, hv]
    | cons x ws =>
      by_cases ht : v.type = T_DIR
      · simp [walk, resolveParent, resolve, hv, ht, Option.bind_assoc, List.getLast?_cons, Option.bind_comm]
      · simp [walk, resolveParent, resolve, hv, ht]

structure Tree (vol : Nat → Option Vnode) : Prop where
  root : ∃ v, vol ROOTINO = some v ∧ v.nlink ≠ 0
  whole : ∀ i v, vol i = some v → v.type = T_DIR → 16 ∣ v.size
  named : ∀ i v, vol i = some v → v.type = T_DIR → ∀ name j, v.names name = some j →
    ∃ w, vol j = some w ∧ w.nlink ≠ 0

/-- `namex` between two elements: it has a reference to `ip`, and no inode is locked. -/
structure OnWay (sb : Superblock) (b : Slot → Nat) (s : State) (ip : Slot) : Prop where
  synced : Synced sb s
  trans : s.InTrans
  refs : Refs (bump b ip) s
  free : ∀ jp, s.lock jp = none
  there : ∃ v, volume sb s.disk (s.inum ip) = some v ∧ (b ip = 0 → v.nlink ≠ 0)

def Gets (E : Env) (b : Slot → Nat) : Prop :=
  E.stops (.panic .igetNoInodes) ∨ ∃ jp kp, jp ≠ kp ∧ b jp = 0 ∧ b kp = 0

/-- What the walk leaves: the disk as it was, and a reference to what it answers. -/
def Walked (b : Slot → Nat) (disk : Disk) (x : Option (Nat × List UInt8)) (r : Option (Slot × List UInt8))
    (s : State) : Prop :=
  s.disk = disk ∧ Refs (r.elim b fun y => bump b y.1) s ∧ r.map (fun y => (s.inum y.1, y.2)) = x

section Walk

variable {E : Env} {p : Proc} {sb : Superblock} {s : State} {ip : Slot} {b : Slot → Nat}

theorem Gets.empty (h : Gets E b) (href : Refs (bump b ip) s) (he : s.empty = none) :
    E.stops (.panic .igetNoInodes) := by
  refine h.resolve_right ?_
  rintro ⟨jp, kp, hne, hj, hk⟩
  have hfull (x : Slot) (hx : b x = 0) : x = ip := by
    by_contra hxi
    have h0 : (s.ident x).ref = 0 := by rw [href x, bump_of_ne hxi, hx]; rfl
    simpa [h0] using List.find?_eq_none.mp he x (List.mem_finRange x)
  exact hne ((hfull jp hj).trans (hfull kp hk).symm)

theorem Synced.not_frees (h : Synced sb s) (hr : 0 < (s.ident ip).ref)
    (hvol : volume sb s.disk (s.inum ip) = some v) (hn : b ip = 0 → v.nlink ≠ 0) :
    ¬Frees b s ip := by
  rintro ⟨hb, hv, h0⟩
  rw [← h.vnode_of_volume hr hv hvol] at hn
  exact hn hb h0

/-- **The loop of `namex`.** -/
theorem OnWay.does_namexFrom (h : OnWay sb b s ip) (ht : Tree (volume sb s.disk)) (hE : Gets E b)
    (parent : Bool) {n : Nat} (hn : path.length < n) : Does E p (namexFrom sb parent n ip path)
      (Walked b s.disk (walk (volume sb s.disk) parent (s.inum ip) (elements path))) s := by
  induction n generalizing s ip path with
  | zero => omega
  | succ n ih =>
    obtain ⟨v, hvol, hnl⟩ := h.there
    have hspec := skipelem_spec path
    unfold namexFrom
    cases hs : skipelem path with
    | none =>
      rw [hs] at hspec
      rw [hspec]
      cases parent with
      | true =>
        refine does_bind.2 (h.synced.does_iput h.trans h.refs (fun _ => .inl (h.free ip)) ?_)
        intro s' _ hr _ _ hd
        exact ⟨(if_neg (h.synced.not_frees h.refs.pos hvol hnl)).mp hd, hr, rfl⟩
      | false => exact ⟨rfl, h.refs, rfl⟩
    | some x =>
      obtain ⟨name, rest⟩ := x
      rw [hs] at hspec
      obtain ⟨hel, hlt, hlast⟩ := hspec
      rw [hel, walk_cons hvol]
      refine does_bind.2 (h.synced.does_ilock h.refs.pos (h.free ip) (live_of_volume hvol).1 ?_)
      rintro s₁ hs₁ hsync hm
      have hdisk : s₁.disk = s.disk := by rw [hs₁]
      have hid : s₁.ident = s.ident := by rw [hs₁]
      have hin : s₁.inum ip = s.inum ip := by rw [State.inum, hid]
      have hv₁ : (s₁.node ip).valid = true := by simp [hs₁]
      have href : Refs (bump b ip) s₁ := fun jp => by rw [hid, h.refs jp]
      have hT := (hm b).inTrans h.trans
      have hlock : s₁.lock ip = some p := by simp [hs₁]
      have hfree (jp : Slot) (hj : jp ≠ ip) : s₁.lock jp = none := by simp [hs₁, hj, h.free jp]
      have hvol₁ : volume sb s₁.disk (s₁.inum ip) = some v := by rw [hdisk, hin, hvol]
      have hvn := hsync.vnode_of_volume href.pos hv₁ hvol₁
      have htype : (s₁.node ip).d.type = v.type := congrArg Vnode.type hvn
      have hsize : (s₁.node ip).d.size = v.size := congrArg Vnode.size hvn
      have hgone : Does E p (iunlockput sb ip >>= fun _ => pure none) (Walked b s.disk none) s₁ := by
        refine does_bind.2 (hsync.does_iunlockput hT href hlock fun s' _ hr _ _ hd => ?_)
        rw [if_neg (hsync.not_frees href.pos hvol₁ hnl)] at hd
        exact ⟨hd.trans hdisk, hr, rfl⟩
      refine does_bind.2 (does_node ?_)
      rw [htype]
      by_cases hdir : v.type ≠ T_DIR
      · rw [if_pos hdir, if_pos hdir]
        exact hgone
      rw [if_neg hdir, if_neg hdir]
      have hrest : rest = [] ↔ elements rest = [] := ⟨fun he => by rw [he]; rfl, hlast⟩
      by_cases hpar : parent = true ∧ rest = []
      · rw [if_pos hpar, if_pos ⟨hpar.1, hrest.mp hpar.2⟩]
        exact does_bind.2 (does_iunlock href.pos hlock ⟨hdisk, href, congrArg (fun i => some (i, name)) hin⟩)
      rw [if_neg hpar, if_neg fun hc => hpar ⟨hc.1, hrest.mpr hc.2⟩]
      replace hdir := not_not.mp hdir
      refine does_bind.2 (hsync.does_dirlookup href.pos hv₁ href (hE.empty href) (.inl (htype.trans hdir))
        (.inl (hsize ▸ ht.whole _ v hvol hdir)) (fun hno => ?_) fun j jp s₂ hj hfirst hs₂ hr₂ hm₂ hl₂ hd₂ hi₂ _ => ?_)
      · rw [← hvn, names_eq_none.mpr hno]
        exact hgone
      · have hname : v.names name = some (s₂.inum jp) := by
          rw [← hvn, hi₂, names_of_first hj hfirst]
        have hip : s₂.inum ip = s.inum ip := (hm₂.inum ip (bump_pos b ip)).trans hin
        rw [bump_comm] at hr₂
        have hno : ¬Frees (bump b jp) s₂ ip := by
          refine hs₂.not_frees hr₂.pos (by rw [hd₂, hdisk, hip, hvol]) fun hb => hnl ?_
          exact Nat.le_zero.mp (hb ▸ le_bump b jp ip)
        rw [hname]
        dsimp only
        refine does_bind.2 (hs₂.does_iunlockput (hm₂.inTrans hT) hr₂ (hl₂ ▸ hlock) ?_)
        intro s₃ hs₃ hr₃ hm₃ hl₃ hd₃
        rw [if_neg hno] at hd₃
        have hd : s₃.disk = s.disk := (hd₃.trans hd₂).trans hdisk
        have hfree₃ (kp : Slot) : s₃.lock kp = none := by
          rw [hl₃, hl₂]
          by_cases hk : kp = ip
          · rw [hk, update_self]
          · rw [update_of_ne hk, hfree kp hk]
        have hi₃ : s₃.inum jp = s₂.inum jp := hm₃.inum jp (bump_pos b jp)
        obtain ⟨w, hw, hwn⟩ := ht.named _ v hvol hdir name _ hname
        have hway : OnWay sb b s₃ jp :=
          ⟨hs₃, hm₃.inTrans (hm₂.inTrans hT), hr₃, hfree₃, w, by rw [hd, hi₃, hw], fun _ => hwn⟩
        have hnext := ih hway (hd.symm ▸ ht) (show rest.length < n by omega)
        rwa [hd, hi₃] at hnext

theorem does_cwd (hc : s.cwd p = some c) {Q : Slot → State → Prop} (hq : Q c s) :
    Does E p cwd Q s :=
  does_answer (fun _ => by simp [perform, hc]) hq

/-- A process in a directory of the tree, with nobody else in the file system. -/
structure Lookup (sb : Superblock) (p : Proc) (s : State) (c : Slot) : Prop where
  synced : Synced sb s
  trans : s.InTrans
  counts : ∀ jp, 0 ≤ (s.ident jp).ref
  free : ∀ jp, s.lock jp = none
  tree : Tree (volume sb s.disk)
  cwd : s.cwd p = some c
  held : 0 < (s.ident c).ref
  there : ∃ v, volume sb s.disk (s.inum c) = some v

theorem Lookup.does_namex (h : Lookup sb p s c) (hE : Gets E s.refs) (path : List UInt8)
    (parent : Bool) :
    Does E p (namex sb path parent) (Walked s.refs s.disk (walk (volume sb s.disk) parent
      (if path.head? = some 47 then ROOTINO else s.inum c) (elements path))) s := by
  have href : Refs s.refs s := fun jp => (Int.toNat_of_nonneg (h.counts jp)).symm
  unfold namex
  by_cases habs : path.head? = some 47
  · rw [if_pos habs, if_pos habs]
    obtain ⟨v, hv, hn⟩ := h.tree.root
    refine does_bind.2 (h.synced.does_iget href (fun he => ?_) fun ip s' hs hr hm hl hd hi _ => ?_)
    · refine hE.resolve_right ?_
      rintro ⟨jp, -, -, hj, -⟩
      simpa [href jp, hj] using List.find?_eq_none.mp he jp (List.mem_finRange jp)
    · have hw : OnWay sb s.refs s' ip :=
        ⟨hs, hm.inTrans h.trans, hr, fun jp => hl ▸ h.free jp, v, by rw [hd, hi, hv], fun _ => hn⟩
      have hx := hw.does_namexFrom (p := p) (hd.symm ▸ h.tree) hE parent (Nat.lt_succ_self path.length)
      rwa [hd, hi] at hx
  · rw [if_neg habs, if_neg habs]
    obtain ⟨v, hv⟩ := h.there
    refine does_bind.2 (does_bind.2 (does_cwd h.cwd (does_idup ?_)))
    have hm := moves_addRef s.refs s c 1
    have hpos : 0 < s.refs c := Int.lt_toNat.mpr h.held
    have hw : OnWay sb s.refs (s.addRef c 1) c := by
      refine ⟨h.synced.addRef fun _ => h.held, h.trans, fun jp => ?_, h.free, v, ?_, fun h0 => ?_⟩
      · by_cases hj : jp = c
        · rw [hj, bump_self]
          simp [State.addRef, State.setIdent, href c]
        · simp [State.addRef, State.setIdent, hj, bump_of_ne hj, href jp]
      · rw [hm.inum c hpos]
        exact hv
      · omega
    have hx := hw.does_namexFrom (p := p) h.tree hE parent (Nat.lt_succ_self path.length)
    rwa [hm.inum c hpos] at hx

/-- **Paths are followed element by element.** -/
theorem path_follows_elements {c : Slot} (h : Lookup sb p s c) (hE : Gets E s.refs) (path : List UInt8) :
    (∀ m a fuel, Bytes.Str m a path → 0 < a → path.length ≤ fuel → Yields m fuel a (elements path)) ∧
    Does E p (namei sb path) (fun r s' => s'.disk = s.disk ∧ Refs (r.elim s.refs (bump s.refs)) s' ∧
      r.map s'.inum = resolve (volume sb s.disk)
        (if path.head? = some 47 then ROOTINO else s.inum c) (elements path)) s ∧
    Does E p (nameiparent sb path) (fun r s' => s'.disk = s.disk ∧
      Refs (r.elim s.refs fun x => bump s.refs x.1) s' ∧
      r.map (fun x => (s'.inum x.1, x.2)) = resolveParent (volume sb s.disk)
        (if path.head? = some 47 then ROOTINO else s.inum c) (elements path)) s := by
  refine ⟨fun m a fuel hs ha hf => yields_elements hs ha hf, (h.does_namex hE path false).call ?_,
    h.does_namex hE path true⟩
  rintro r s' ⟨hd, hr, hx⟩
  refine ⟨hd, by cases r <;> exact hr, ?_⟩
  simpa [walk, Function.comp_def] using congrArg (Option.map Prod.fst) hx

end Walk

def smallFree : State := { smallState with lock := fun _ => none }

theorem small_lookup : Lookup small 0 smallFree 0 := by
  have h1 : ∃ v, volume small smallDisk 1 = some v := ⟨_, if_pos ⟨by decide, by decide +kernel⟩⟩
  have hlink : ∀ j, j = 1 ∨ j = 2 ∨ j = 3 → ∃ w, volume small smallDisk j = some w ∧ w.nlink ≠ 0 := by
    rintro j (rfl | rfl | rfl) <;>
      exact ⟨_, if_pos ⟨by decide, by decide +kernel⟩, by decide +kernel⟩
  have hwhole : ∀ i < 4, (inode small smallDisk i).type = T_DIR → (inode small smallDisk i).size % 16 = 0 := by
    decide +kernel
  have hslot : ∀ i < 4, (inode small smallDisk i).type = T_DIR →
      ∀ k < (inode small smallDisk i).size / 16, ((vnode smallDisk (inode small smallDisk i)).slot k).inum < 4 := by
    decide +kernel
  refine ⟨small_synced.lock _, ⟨0, by decide⟩, small_directory.counts, fun _ => rfl,
    ⟨hlink 1 (.inl rfl), fun i v hv ht => ?_, fun i v hv ht name j hj => ?_⟩, rfl, by decide, h1⟩
  · obtain ⟨hl, rfl⟩ := live_of_volume hv
    exact Nat.dvd_of_mod_eq_zero (hwhole i hl.1 ht)
  · obtain ⟨hl, rfl⟩ := live_of_volume hv
    obtain ⟨k, hk, rfl⟩ := Option.map_eq_some_iff.mp hj
    have hk0 := List.find?_some hk
    have hmem := List.mem_range.mp (List.mem_of_find?_eq_some hk)
    have hlt : ((vnode smallFree.disk (inode small smallFree.disk i)).slot k).inum < 4 := hslot i hl.1 ht k hmem
    have hne := (of_decide_eq_true hk0).1
    exact hlink _ (by omega)

/-- `/a/b` is the file. -/
theorem path_follows_elements_small : Does anyMemory 0 (namei small [0x2f, 0x61, 0x2f, 0x62])
    (fun r s' => r.map s'.inum = some 3) smallFree := by
  refine (path_follows_elements small_lookup (E := anyMemory) (.inr ⟨2, 3, by decide, rfl, rfl⟩)
    [0x2f, 0x61, 0x2f, 0x62]).2.1.mono ?_
  rintro r s' ⟨-, -, hr⟩
  rw [show elements [0x2f, 0x61, 0x2f, 0x62] = [[0x61], [0x62]] by decide] at hr
  have hres : resolve (volume small smallDisk) 1 [[0x61], [0x62]] = some 3 := by decide +kernel
  exact hr.trans hres

end ZeptOS.Fs
