import UCore.Fs.LookupRun
import UCore.Fs.ReadRun

/-!
# Fs/LookupPath — a path is followed for one component

What a path leads to is the inode at the end of its components, taken one after the other from where
it starts.  `vfs_lookup` gives all that is left of the path to `vop_lookup`, and `sfs_lookup` takes it
for one name.

    dev:a        a      looked up
    dev:a/b      a/b    in no directory: an error
    dev:aaa…     more than 255 characters: an assertion fails
-/

namespace UCore.Fs

open Sfs Act

namespace Vfs

variable {s s' : Vfs} {inos loose : Finset ℕ} {path name rest : List UInt8} {n m : Inode}
  {c : Inode → ℕ} {i d : ℕ} {R : ℤ → Vfs → Prop} {E : Assertion → Prop}

/-! ## Where a path starts, and where it leads -/

/-- The components of a path, between its slashes. -/
def components (path : List UInt8) : List (List UInt8) := (path.splitOn SLASH).filter (· ≠ [])

/-- **Following components** from an inode, each in the directory that the ones before it lead to. -/
inductive Walk (v : Volume) : Inode → List (List UInt8) → Inode → Prop
  | nil (n : Inode) : Walk v n [] n
  | cons {d i : ℕ} {name : List UInt8} {names : List (List UInt8)} {n : Inode}
      (hd : (v.inode d).type = .dir) (hfound : Found v d name i) (hwalk : Walk v (.sfs i) names n) :
      Walk v (.sfs d) (name :: names) n

/-- A part of a path before its first colon and its first slash. -/
def Plain (name : List UInt8) : Prop := ∀ c ∈ name, c ≠ COLON ∧ c ≠ SLASH

/-- The root of a device: of the volume, or the device itself. -/
def DevRoot (s : Vfs) (name : List UInt8) (n : Inode) : Prop :=
  ∃ vdev, s.vdevList.find? (fun vdev => vdev.devname == name) = some vdev ∧
    (vdev.fs = true ∧ n = .sfs SFS_BLKN_ROOT ∨
      vdev.fs = false ∧ vdev.mountable = false ∧ n = .dev vdev.devnode)

/-- **Where a path starts**, and the rest of it. -/
inductive Starts (s : Vfs) : List UInt8 → Inode → List UInt8 → Prop
  /-- A leading slash: the boot root. -/
  | boot {b : ℕ} {rest : List UInt8} (h : s.bootfsNode = some b) :
      Starts s (SLASH :: rest) (.sfs b) rest
  /-- A leading colon: the root of the current file system. -/
  | root {d : ℕ} {rest : List UInt8} (h : s.pwd = some d) :
      Starts s (COLON :: rest) (.sfs SFS_BLKN_ROOT) rest
  /-- The name of a device: its root. -/
  | device {name rest : List UInt8} {n : Inode} (hne : name ≠ []) (hname : Plain name)
      (h : DevRoot s name n) : Starts s (name ++ COLON :: rest) n rest
  /-- Any other path: the current directory. -/
  | here {d : ℕ} {path : List UInt8} (h : s.pwd = some d) (hslash : path.head? ≠ some SLASH)
      (hcolon : ∀ name rest, Plain name → path ≠ name ++ COLON :: rest) :
      Starts s path (.sfs d) path

/-- **What a path leads to.** -/
def Reaches (s : Vfs) (path : List UInt8) (n : Inode) : Prop :=
  ∃ start rest, Starts s path start rest ∧ Walk s.files.vol start (components rest) n

/-! ## Slashes -/

theorem components_slash : components (SLASH :: path) = components path := by
  rw [components, List.splitOn_cons_eq_if_modifyHead, if_pos (beq_self_eq_true _),
    List.filter_cons_of_neg (by simp), components]

@[simp] theorem skipSlashes_slash : skipSlashes (SLASH :: path) = skipSlashes path := by
  simp [skipSlashes]

theorem skipSlashes_of_ne {b : UInt8} (h : b ≠ SLASH) : skipSlashes (b :: path) = b :: path := by
  rw [skipSlashes, List.dropWhile_cons_of_neg (by simpa using h)]

/-- Slashes before a component count for nothing. -/
theorem components_skipSlashes (path : List UInt8) :
    components (skipSlashes path) = components path := by
  induction path with
  | nil => rfl
  | cons c cs ih =>
    by_cases hc : c = SLASH
    · rw [hc, components_slash, ← ih, skipSlashes_slash]
    · rw [skipSlashes_of_ne hc]

/-- A name is one component. -/
theorem components_name (hne : name ≠ []) (hname : SLASH ∉ name) : components name = [name] := by
  rw [components, List.splitOn_eq_singleton hname, List.filter_cons_of_pos (by simpa using hne), List.filter_nil]

theorem skipSlashes_of_head (h : path.head? ≠ some SLASH) : skipSlashes path = path := by
  cases path with
  | nil => rfl
  | cons c cs => exact skipSlashes_of_ne (by simpa using h)

theorem head_skipSlashes (path : List UInt8) : (skipSlashes path).head? ≠ some SLASH := by
  induction path with
  | nil => simp [skipSlashes]
  | cons c cs ih =>
    by_cases hc : c = SLASH
    · rwa [hc, skipSlashes_slash]
    · rw [skipSlashes_of_ne hc]
      simpa using hc

/-! ## The scan for a device -/

theorem Plain.tail {b : UInt8} (h : Plain (b :: name)) : Plain name := fun c hc =>
  h c (List.mem_cons_of_mem b hc)

theorem scan_plain (h : Plain name) (i : ℤ) : getDeviceScan name i = (-1, -1) := by
  induction name generalizing i with
  | nil => rfl
  | cons b name ih =>
    obtain ⟨hc, hs⟩ := h b List.mem_cons_self
    rw [getDeviceScan, if_neg hc, if_neg hs, ih h.tail]

theorem scan_colon (h : Plain name) (i : ℤ) :
    getDeviceScan (name ++ COLON :: rest) i = (-1, i + name.length) := by
  induction name generalizing i with
  | nil => simp [getDeviceScan]
  | cons b name ih =>
    obtain ⟨hc, hs⟩ := h b List.mem_cons_self
    rw [List.cons_append, getDeviceScan, if_neg hc, if_neg hs, ih h.tail, List.length_cons]
    push_cast
    rw [Int.add_assoc, Int.add_comm 1]

theorem scan_slash (h : Plain name) (i : ℤ) :
    getDeviceScan (name ++ SLASH :: rest) i = (i + name.length, -1) := by
  induction name generalizing i with
  | nil =>
    rw [List.nil_append, getDeviceScan, if_neg (by decide), if_pos rfl]
    simp
  | cons b name ih =>
    obtain ⟨hc, hs⟩ := h b List.mem_cons_self
    rw [List.cons_append, getDeviceScan, if_neg hc, if_neg hs, ih h.tail, List.length_cons]
    push_cast
    rw [Int.add_assoc, Int.add_comm 1]

/-- **A path has a colon first, or a slash, or neither.** -/
theorem plain_cases (path : List UInt8) : Plain path ∨
    (∃ name rest, Plain name ∧ path = name ++ COLON :: rest) ∨
      ∃ name rest, Plain name ∧ path = name ++ SLASH :: rest := by
  induction path with
  | nil => exact .inl fun _ hc => absurd hc List.not_mem_nil
  | cons b path ih =>
    by_cases hc : b = COLON
    · exact .inr (.inl ⟨[], path, fun _ h => absurd h List.not_mem_nil, by rw [hc]; rfl⟩)
    by_cases hs : b = SLASH
    · exact .inr (.inr ⟨[], path, fun _ h => absurd h List.not_mem_nil, by rw [hs]; rfl⟩)
    have hcons : ∀ {name}, Plain name → Plain (b :: name) := fun hp x hx => by
      rcases List.mem_cons.mp hx with rfl | hx
      · exact ⟨hc, hs⟩
      · exact hp x hx
    rcases ih with hp | ⟨name, rest, hp, rfl⟩ | ⟨name, rest, hp, rfl⟩
    · exact .inl (hcons hp)
    · exact .inr (.inl ⟨b :: name, rest, hcons hp, rfl⟩)
    · exact .inr (.inr ⟨b :: name, rest, hcons hp, rfl⟩)

theorem scan_head_slash : getDeviceScan (SLASH :: rest) 0 = (0, -1) := by
  have hscan : getDeviceScan ([] ++ SLASH :: rest) 0 = _ :=
    scan_slash (fun _ hc => absurd hc List.not_mem_nil) 0
  simpa using hscan

theorem scan_head_colon : getDeviceScan (COLON :: rest) 0 = (-1, 0) := by
  have hscan : getDeviceScan ([] ++ COLON :: rest) 0 = _ :=
    scan_colon (fun _ hc => absurd hc List.not_mem_nil) 0
  simpa using hscan

/-- A path that names no device and does not begin with a slash. -/
theorem scan_relative (hslash : path.head? ≠ some SLASH)
    (hcolon : ∀ name rest, Plain name → path ≠ name ++ COLON :: rest) :
    (getDeviceScan path 0).2 < 0 ∧ (getDeviceScan path 0).1 ≠ 0 := by
  rcases plain_cases path with hp | ⟨name, rest, hp, rfl⟩ | ⟨name, rest, hp, rfl⟩
  · rw [scan_plain hp]
    decide
  · exact absurd rfl (hcolon name rest hp)
  · have hne : name ≠ [] := by
      rintro rfl
      exact hslash rfl
    have hlen : 0 < name.length := List.length_pos_of_ne_nil hne
    rw [scan_slash hp, zero_add]
    exact ⟨by norm_num, by simpa using hne⟩

/-! ## Counts -/

/-- **The state `s`, with `c n` more references to the inode `n`.** -/
structure Moved (s : Vfs) (c : Inode → ℕ) (s' : Vfs) : Prop where
  files : Counted s.files (fun i => c (.sfs i)) s'.files
  devRefs : ∀ d, (s'.devNode d).refCount = (s.devNode d).refCount + c (.dev d)
  devOpens : ∀ d, (s'.devNode d).openCount = (s.devNode d).openCount

/-- An error, with the counts as they were. -/
def Declined (s : Vfs) (e : ℤ) (s' : Vfs) : Prop := e < 0 ∧ Moved s (fun _ => 0) s'

theorem oneMore_sfs : (fun j => oneMore c (.sfs i) (.sfs j)) = oneMore (fun j => c (.sfs j)) i := by
  funext j
  simp [oneMore]

theorem oneLess_sfs : (fun j => oneLess c (.sfs i) (.sfs j)) = oneLess (fun j => c (.sfs j)) i := by
  funext j
  simp [oneLess]

namespace Moved

theorem refl (s : Vfs) : Moved s (fun _ => 0) s := ⟨.refl _, fun _ => rfl, fun _ => rfl⟩

theorem refs (h : Moved s c s') (n : Inode) : (s'.node n).refCount = (s.node n).refCount + c n := by
  cases n with
  | sfs i => exact h.files.refs i
  | dev d => exact h.devRefs d

theorem opens (h : Moved s c s') (n : Inode) : (s'.node n).openCount = (s.node n).openCount := by
  cases n with
  | sfs i => exact h.files.opens i
  | dev d => exact h.devOpens d

/-- Another reference to an inode of the volume. -/
theorem more {f : FileSys} (h : Moved s c s')
    (hf : Counted s.files (oneMore (fun j => c (.sfs j)) i) f) :
    Moved s (oneMore c (.sfs i)) { s' with files := f } :=
  ⟨oneMore_sfs ▸ hf, fun d => (h.devRefs d).trans (by rw [oneMore_of_ne (by simp)]), h.devOpens⟩

/-- One reference less. -/
theorem less {f : FileSys} (h : Moved s c s')
    (hf : Counted s.files (oneLess (fun j => c (.sfs j)) i) f) :
    Moved s (oneLess c (.sfs i)) { s' with files := f } :=
  ⟨oneLess_sfs ▸ hf, fun d => (h.devRefs d).trans (by rw [oneLess_of_ne (by simp)]), h.devOpens⟩

theorem incSfs (h : Moved s c s') (hi : (s'.files.node i).cached = true) :
    wpe (vopRefInc (.sfs i)) (fun _ => Moved s (oneMore c (.sfs i))) R E s' := by
  simp only [vopRefInc, onFileSys, wpe_zoome, wpe_bind]
  exact h.files.inc hi fun f hf _ => h.more hf

/-- The counts of the inode of a device. -/
theorem setDev (h : Moved s c s') (d : ℕ) (node : Node) (c' : Inode → ℕ)
    (hc : ∀ n, n ≠ .dev d → c' n = c n) (href : node.refCount = (s.devNode d).refCount + c' (.dev d))
    (hopen : node.openCount = (s.devNode d).openCount) :
    Moved s c' { s' with devNode := Function.update s'.devNode d node } := by
  refine ⟨?_, fun e => ?_, fun e => ?_⟩
  · have hsame : (fun j => c' (.sfs j)) = fun j => c (.sfs j) := funext fun j => hc _ (by simp)
    rw [hsame]
    exact h.files
  · dsimp only
    rcases eq_or_ne e d with rfl | hne
    · rw [Function.update_self, href]
    · rw [Function.update_of_ne hne, hc _ (by simpa using hne), h.devRefs]
  · dsimp only
    rcases eq_or_ne e d with rfl | hne
    · rw [Function.update_self, hopen]
    · rw [Function.update_of_ne hne, h.devOpens]

theorem incDev (h : Moved s c s') :
    wpe (vopRefInc (.dev d)) (fun _ => Moved s (oneMore c (.dev d))) R E s' := by
  rw [vopRefInc, setDevNode, wpe_modify]
  refine h.setDev d _ _ (fun n hn => oneMore_of_ne hn) ?_ (h.devOpens d)
  rw [oneMore_self]
  dsimp only
  rw [h.devRefs, Nat.add_assoc]

theorem decSfs (h : Moved s c s') (hi : (s'.files.node i).cached = true) (hc : 1 ≤ c (.sfs i))
    (href : 0 < (s.files.node i).refCount) :
    wpe (vopRefDec (.sfs i)) (fun _ => Moved s (oneLess c (.sfs i))) R E s' := by
  simp only [vopRefDec, onFileSys, wpe_zoome]
  exact wpe_mono (h.files.dec hi hc href) (fun _ f hf => h.less hf) (fun _ _ => id) fun _ => id

theorem decDev (h : Moved s c s') (hc : 1 ≤ c (.dev d)) :
    wpe (vopRefDec (.dev d)) (fun _ => Moved s (oneLess c (.dev d))) R E s' := by
  have href := h.devRefs d
  simp only [vopRefDec, setDevNode, wpe_bind, wpe_get, wpe_demand, wpe_modify]
  refine ⟨fun _ => ?_, fun hno => absurd (show 0 < _ by omega) hno⟩
  refine h.setDev d _ _ (fun n hn => oneLess_of_ne hn) ?_ (h.devOpens d)
  rw [oneLess_self]
  dsimp only
  omega

end Moved

/-! ## A file system on a tree -/

/-- A directory of the tree that somebody refers to. -/
structure Anchored (inos : Finset ℕ) (f : FileSys) (i : ℕ) : Prop where
  mem : i ∈ inos
  dir : (f.vol.inode i).type = .dir
  cached : (f.node i).cached = true
  refs : 0 < (f.node i).refCount

/-- **A file system on a tree**: the root, the boot root and the current directory are directories of
the tree that are referred to, and so are the inodes of the devices. -/
structure Rooted (inos loose : Finset ℕ) (s : Vfs) : Prop where
  tree : Tree inos loose s.files
  root : Anchored inos s.files SFS_BLKN_ROOT
  bootfs : ∀ i, s.bootfsNode = some i → Anchored inos s.files i
  pwd : ∀ i, s.pwd = some i → Anchored inos s.files i
  devOpens : ∀ d, (s.devNode d).openCount ≤ (s.devNode d).refCount

/-- An inode that was in memory still is. -/
theorem Moved.cached (h : Moved s c s') (ha : Anchored inos s.files i) :
    (s'.files.node i).cached = true := by
  refine (Bool.not_eq_false _).mp fun hf => ?_
  have h0 := (h.files.cached i hf).1
  rw [ha.cached] at h0
  exact nomatch h0

/-- The root is in memory, so that `sfs_get_root` finds it. -/
theorem Rooted.wpe_fsopGetRoot (h : Rooted inos loose s) (hm : Moved s c s') :
    wpe fsopGetRoot (fun n s'' => n = .sfs SFS_BLKN_ROOT ∧ Moved s (oneMore c n) s'') R E s' := by
  rw [fsopGetRoot, wpe_bind, wpe_attempt, onFileSys, wpe_zoome]
  refine wpe_mono (hm.files.wpe_load (R := fun _ _ => False) (hm.cached h.root))
    (fun _ f hf => ⟨rfl, hm.more hf⟩) (fun _ _ hf => hf.elim) fun _ => id

theorem Rooted.wpe_getCurdir (h : Rooted inos loose s) (hi : s.pwd = some i) :
    wpe vfsGetCurdir (fun n s' => n = .sfs i ∧ Moved s (oneMore (fun _ => 0) n) s') R E s := by
  rw [vfsGetCurdir, wpe_bind, wpe_get, hi]
  dsimp only
  rw [wpe_bind]
  exact wpe_mono ((Moved.refl s).incSfs (h.pwd i hi).cached) (fun _ s' hs => ⟨rfl, hs⟩)
    (fun _ _ => id) fun _ => id

theorem Rooted.wpe_getBootfs (h : Rooted inos loose s) (hi : s.bootfsNode = some i) :
    wpe vfsGetBootfs (fun n s' => n = .sfs i ∧ Moved s (oneMore (fun _ => 0) n) s') R E s := by
  rw [vfsGetBootfs, wpe_bind, wpe_get, hi]
  dsimp only
  rw [wpe_bind]
  exact wpe_mono ((Moved.refl s).incSfs (h.bootfs i hi).cached) (fun _ s' hs => ⟨rfl, hs⟩)
    (fun _ _ => id) fun _ => id

theorem Rooted.wpe_getRoot (h : Rooted inos loose s) (hn : DevRoot s name n) :
    wpe (vfsGetRoot name) (fun m s' => m = n ∧ Moved s (oneMore (fun _ => 0) m) s') R E s := by
  obtain ⟨vdev, hfind, hroot⟩ := hn
  rw [vfsGetRoot, wpe_bind, wpe_get, hfind]
  dsimp only
  rcases hroot with ⟨hfs, rfl⟩ | ⟨hfs, hmount, rfl⟩
  · rw [if_pos hfs]
    exact h.wpe_fsopGetRoot (.refl s)
  · rw [if_neg (by simp [hfs]), if_pos hmount, wpe_bind]
    exact wpe_mono (Moved.refl s).incDev (fun _ s' hs => ⟨rfl, hs⟩) (fun _ _ => id) fun _ => id

/-- **Where the path starts, `get_device` starts**, at what is left after the slashes. -/
theorem Rooted.wpe_getDevice (h : Rooted inos loose s) (hs : Starts s path n rest) :
    wpe (getDevice path)
      (fun r s' => r = (skipSlashes rest, n) ∧ Moved s (oneMore (fun _ => 0) n) s') R E s := by
  cases hs with
  | @boot b rest hb =>
    rw [getDevice, scan_head_slash]
    dsimp only
    rw [if_neg (by simp), if_neg (by simp), if_pos (by simp), wpe_bind]
    refine wpe_mono (h.wpe_getBootfs hb) ?_ (fun _ _ => id) fun _ => id
    rintro _ s' ⟨rfl, hm⟩
    exact ⟨rfl, hm⟩
  | @root d rest hd =>
    rw [getDevice, scan_head_colon]
    dsimp only
    have hhead : ¬ (COLON :: rest).head? = some SLASH := fun heq =>
      absurd (Option.some.inj heq) (by decide)
    rw [if_neg (by simp), if_neg (by simp), if_neg hhead, wpe_bind, wpe_demand]
    refine ⟨fun _ => ?_, fun hno => absurd rfl hno⟩
    rw [wpe_bind]
    refine wpe_mono (h.wpe_getCurdir hd) ?_ (fun _ _ => id) fun _ => id
    rintro _ s₁ ⟨rfl, hm₁⟩
    rw [wpe_bind]
    refine wpe_mono (h.wpe_fsopGetRoot hm₁) ?_ (fun _ _ => id) fun _ => id
    rintro _ s₂ ⟨rfl, hm₂⟩
    rw [wpe_bind]
    refine wpe_mono (hm₂.decSfs (hm₂.cached (h.pwd d hd)) (one_le_oneMore.trans le_oneMore)
      (h.pwd d hd).refs) (fun _ s₃ hm₃ => ?_) (fun _ _ => id) fun _ => id
    rw [oneLess_oneMore_oneMore] at hm₃
    exact ⟨rfl, hm₃⟩
  | @device name rest n hne hname hroot =>
    have hlen : 0 < name.length := List.length_pos_of_ne_nil hne
    rw [getDevice, scan_colon hname, zero_add]
    dsimp only
    rw [if_neg (by omega), if_pos (by omega), Int.toNat_natCast, List.take_left, wpe_bind]
    refine wpe_mono (h.wpe_getRoot hroot) ?_ (fun _ _ => id) fun _ => id
    rintro _ s' ⟨rfl, hm⟩
    refine ⟨?_, hm⟩
    rw [List.drop_append, List.drop_of_length_le (Nat.le_succ _), Nat.add_sub_cancel_left]
    rfl
  | @here d path hd hslash hcolon =>
    rw [getDevice]
    dsimp only
    rw [if_pos (scan_relative hslash hcolon), wpe_bind]
    refine wpe_mono (h.wpe_getCurdir hd) ?_ (fun _ _ => id) fun _ => id
    rintro _ s' ⟨rfl, hm⟩
    rw [skipSlashes_of_head hslash]
    exact ⟨rfl, hm⟩

/-- **A path that starts nowhere** is an error. -/
theorem wpe_getDevice_none (hno : ∀ n rest, ¬ Starts s path n rest) :
    wpe (getDevice path) (fun _ _ => False) (Declined s) E s := by
  have hpwd : (∀ i, s.pwd ≠ some i) → wpe vfsGetCurdir (fun _ _ => False) (Declined s) E s := by
    intro hnone
    rw [vfsGetCurdir, wpe_bind, wpe_get]
    cases hi : s.pwd with
    | some i => exact absurd hi (hnone i)
    | none => exact ⟨by norm_num, .refl s⟩
  have hempty : Plain [] := fun _ hc => absurd hc List.not_mem_nil
  rw [getDevice]
  rcases plain_cases path with hp | ⟨name, rest, hp, rfl⟩ | ⟨name, rest, hp, rfl⟩
  · rw [scan_plain hp]
    dsimp only
    rw [if_pos (by decide), wpe_bind]
    refine wpe_mono (hpwd fun i hi => hno _ _ (.here hi ?_ fun name rest _ heq => ?_))
      (fun _ _ hf => hf.elim) (fun _ _ => id) fun _ => id
    · intro hhead
      exact (hp SLASH (List.mem_of_head? hhead)).2 rfl
    · exact (hp COLON (heq ▸ by simp)).1 rfl
  · rw [scan_colon hp, zero_add]
    dsimp only
    rw [if_neg (by omega)]
    by_cases hne : name = []
    · subst hne
      have hhead : ¬ (([] : List UInt8) ++ COLON :: rest).head? = some SLASH := fun heq =>
        absurd (Option.some.inj heq) (by decide)
      rw [if_neg (by simp), if_neg hhead, wpe_bind, wpe_demand]
      refine ⟨fun _ => ?_, fun hno => absurd rfl hno⟩
      rw [wpe_bind]
      exact wpe_mono (hpwd fun i hi => hno _ _ (.root hi)) (fun _ _ hf => hf.elim) (fun _ _ => id)
        fun _ => id
    · have hlen : 0 < name.length := List.length_pos_of_ne_nil hne
      rw [if_pos (by omega), Int.toNat_natCast, List.take_left, wpe_bind, vfsGetRoot, wpe_bind,
        wpe_get]
      cases hfind : s.vdevList.find? (fun vdev => vdev.devname == name) with
      | none => exact ⟨by norm_num, .refl s⟩
      | some vdev =>
        dsimp only
        have hroot : ∀ n, ¬ DevRoot s name n := fun n hn => hno _ _ (.device hne hp hn)
        rw [if_neg fun hfs => hroot _ ⟨vdev, hfind, .inl ⟨hfs, rfl⟩⟩, if_neg fun hm => ?_]
        · exact ⟨by norm_num, .refl s⟩
        · by_cases hfs : vdev.fs = true
          · exact hroot _ ⟨vdev, hfind, .inl ⟨hfs, rfl⟩⟩
          · exact hroot _ ⟨vdev, hfind, .inr ⟨by simpa using hfs, hm, rfl⟩⟩
  · rw [scan_slash hp, zero_add]
    dsimp only
    by_cases hne : name = []
    · subst hne
      rw [if_neg (by simp), if_neg (by simp), if_pos (by simp), wpe_bind, vfsGetBootfs, wpe_bind,
        wpe_get]
      cases hi : s.bootfsNode with
      | some i => exact absurd (.boot hi) (hno _ _)
      | none => exact ⟨by norm_num, .refl s⟩
    · have hlen : 0 < name.length := List.length_pos_of_ne_nil hne
      rw [if_pos ⟨by norm_num, by simpa using hne⟩, wpe_bind]
      refine wpe_mono (hpwd fun i hi => hno _ _ (.here hi ?_ fun name' rest' hp' heq => ?_))
        (fun _ _ hf => hf.elim) (fun _ _ => id) fun _ => id
      · cases name with
        | nil => exact absurd rfl hne
        | cons b name => exact fun heq => (hp b List.mem_cons_self).2 (Option.some.inj heq)
      · -- the first of the two is a slash, not a colon
        have hscan : getDeviceScan (name ++ SLASH :: rest) 0 = _ := scan_slash hp 0
        rw [heq, scan_colon hp'] at hscan
        have h2 := congrArg Prod.snd hscan
        dsimp only at h2
        omega

/-! ## The lookup -/

/-- **The condition on a path** that starts at `n` with `rest`: there is room for another reference,
and in a directory all of it is no longer than a name. -/
def Accepts (s : Vfs) (n : Inode) (rest : List UInt8) : Prop :=
  skipSlashes rest ≠ [] → (s.node n).refCount + 1 < MAX_INODE_COUNT ∧
    ((∃ d, n = .sfs d) → (skipSlashes rest).length ≤ SFS_MAX_FNAME_LEN)

/-- A path starts at a directory that is referred to, or at a device. -/
theorem Starts.anchored (hs : Starts s path (.sfs d) rest) (h : Rooted inos loose s) :
    Anchored inos s.files d := by
  cases hs with
  | boot hb => exact h.bootfs d hb
  | root => exact h.root
  | device _ _ hroot =>
    obtain ⟨vdev, -, ⟨-, hn⟩ | ⟨-, -, hn⟩⟩ := hroot
    · obtain rfl := Inode.sfs.inj hn
      exact h.root
    · exact nomatch hn
  | here hd => exact h.pwd d hd

/-- **`vop_lookup` of what is left**, with one reference taken. -/
theorem Rooted.wpe_vopLookup (h : Rooted inos loose s) (hs : Starts s path n rest)
    (ha : Accepts s n rest) (hne : skipSlashes rest ≠ [])
    (hm : Moved s (oneMore (fun _ => 0) n) s') :
    wpe (vopLookup (skipSlashes rest) n)
      (fun m s'' => (SLASH ∉ skipSlashes rest ∧ Reaches s path m) ∧
        Moved s (oneMore (oneMore (fun _ => 0) n) m) s'')
      (fun e s'' => e < 0 ∧ Moved s (oneMore (fun _ => 0) n) s'') E s' := by
  obtain ⟨hroom, hlen⟩ := ha hne
  have href := hm.refs n
  have hopen := hm.opens n
  rw [oneMore_self] at href
  cases n with
  | sfs d =>
    have hd := hs.anchored h
    have hle := h.tree.opens d
    simp only [node] at href hopen hroom
    simp only [vopLookup, onFileSys, vopDir, vopOp, inodeCheck, wpe_zoome, wpe_bind, wpe_get,
      wpe_demand]
    rw [hm.files.vol.inode, hd.dir]
    refine ⟨fun _ => ⟨fun _ => ?_, fun hno => absurd ⟨by omega, by omega, by omega⟩ hno⟩,
      fun hno => absurd rfl hno⟩
    refine wpe_mono (h.tree.wpe_lookup hm.files hd.mem hd.dir hd.cached hd.refs hne
      (fun hhead => absurd hhead (head_skipSlashes rest)) fun hno => absurd (hlen ⟨d, rfl⟩) hno) ?_
      (fun e f hf => ⟨hf.1, hf.2, hm.devRefs, hm.devOpens⟩)
      fun _ => id
    rintro i f ⟨⟨hfound, hslash⟩, hf⟩
    refine ⟨⟨hslash, _, _, hs, ?_⟩, hm.more hf⟩
    rw [← components_skipSlashes, components_name hne hslash]
    exact .cons hd.dir hfound (.nil _)
  | dev d =>
    have hle := h.devOpens d
    simp only [node] at href hopen hroom
    rw [vopLookup, wpe_bind, wpe_get]
    dsimp only
    rw [wpe_bind, wpe_demand]
    refine ⟨fun _ => ?_, fun hno => absurd ⟨by omega, by omega, by omega⟩ hno⟩
    rw [if_pos hne]
    exact ⟨by norm_num, hm⟩

/-- **What a lookup does** with a path that it accepts. -/
theorem Rooted.wpe_vfsLookup (h : Rooted inos loose s) (hs : Starts s path n rest)
    (ha : Accepts s n rest) :
    wpe (vfsLookup path) (fun m s' => (SLASH ∉ skipSlashes rest ∧ Reaches s path m) ∧
      Moved s (oneMore (fun _ => 0) m) s') (Declined s) E s := by
  rw [vfsLookup, wpe_bind]
  refine wpe_mono (h.wpe_getDevice hs) ?_ (fun _ _ => id) fun _ => id
  rintro _ s₁ ⟨rfl, hm⟩
  dsimp only
  rw [wpe_ite]
  refine ⟨fun hne => ?_, fun hempty => ?_⟩
  · rw [wpe_andThen]
    have hdec : ∀ {c s₂ R}, Moved s c s₂ → 1 ≤ c n →
        wpe (vopRefDec n) (fun _ => Moved s (oneLess c n)) R E s₂ := fun hm₂ hc => by
      cases n with
      | sfs d => exact hm₂.decSfs (hm₂.cached (hs.anchored h)) hc (hs.anchored h).refs
      | dev d => exact hm₂.decDev hc
    refine wpe_mono (h.wpe_vopLookup hs ha hne hm) (fun m s₂ hs₂ => ?_) (fun e s₂ hs₂ => ?_)
      fun _ => id
    · refine wpe_mono (hdec hs₂.2 (one_le_oneMore.trans le_oneMore)) (fun _ s₃ hs₃ => ?_)
        (fun _ _ => id) fun _ => id
      rw [oneLess_oneMore_oneMore] at hs₃
      exact ⟨hs₂.1, hs₃⟩
    · refine wpe_mono (hdec hs₂.2 one_le_oneMore) (fun _ s₃ hs₃ => ?_) (fun _ _ => id) fun _ => id
      rw [oneLess_oneMore] at hs₃
      exact ⟨hs₂.1, hs₃⟩
  · have hnil := not_not.mp hempty
    refine ⟨⟨hnil ▸ List.not_mem_nil, n, rest, hs, ?_⟩, hm⟩
    rw [← components_skipSlashes, hnil]
    exact .nil n

/-- **A path that is not accepted fails an assertion.** -/
theorem Rooted.stops_vfsLookup (h : Rooted inos loose s) (hs : Starts s path n rest)
    (hna : ¬ Accepts s n rest) :
    wpe (vfsLookup path) (fun _ _ => False) (fun _ _ => False) (fun _ => True) s := by
  rw [Accepts, Classical.not_imp] at hna
  obtain ⟨hne, hbad⟩ := hna
  rw [vfsLookup, wpe_bind]
  refine wpe_mono (h.wpe_getDevice (R := fun _ _ => False) hs) ?_ (fun _ _ => id) fun _ => id
  rintro _ s₁ ⟨rfl, hm⟩
  dsimp only
  rw [if_pos hne, wpe_andThen]
  have href := hm.refs n
  rw [oneMore_self] at href
  cases n with
  | sfs d =>
    have hd := hs.anchored h
    simp only [node] at href hbad
    simp only [vopLookup, onFileSys, vopDir, vopOp, inodeCheck, wpe_zoome, wpe_bind, wpe_get,
      wpe_demand]
    refine ⟨fun _ => ⟨fun hcheck => ?_, fun _ => trivial⟩, fun _ => trivial⟩
    have hlong : ¬ (skipSlashes rest).length ≤ SFS_MAX_FNAME_LEN := fun hle =>
      hbad ⟨by omega, fun _ => hle⟩
    rw [sfsLookup, wpe_bind, wpe_demand]
    refine ⟨fun _ => ?_, fun _ => trivial⟩
    rw [wpe_bind]
    refine hm.files.inc (hm.cached hd) fun f hf _ => ?_
    simp only [wpe_andThen, wpe_bind, wpe_get]
    rw [wpe_ite, hf.vol.inode]
    refine ⟨fun hno => absurd hd.dir hno, fun _ => ?_⟩
    simp only [sfsLookupOnce, sfsDirentSearchNolock, wpe_bind, wpe_demand]
    exact ⟨fun hle => absurd hle hlong, fun _ => trivial⟩
  | dev d =>
    simp only [node] at href hbad
    rw [vopLookup, wpe_bind, wpe_get]
    dsimp only
    rw [wpe_bind, wpe_demand]
    exact ⟨fun hcheck => absurd ⟨by omega, fun hno => hno.elim fun _ heq => by cases heq⟩ hbad, fun _ => trivial⟩

/-- **A path of several components is refused**, whatever it leads to. -/
theorem vfsLookup_nested (h : Rooted inos loose s) (hs : Starts s path n rest)
    (hslash : SLASH ∈ skipSlashes rest) : (vfsLookup path).run s ≠ .ok (.ok m, s') := by
  intro hrun
  by_cases ha : Accepts s n rest
  · have hr := wp_of_ok (h.wpe_vfsLookup (E := fun _ => True) hs ha) hrun
    exact hr.1.1 hslash
  · exact wp_of_ok (h.stops_vfsLookup hs ha) hrun

/-! ## A root directory with one file -/

/-- The volume with one file, the current directory its root. -/
def rootVfs : Vfs where
  files := rootFiles 16
  devNode _ := ⟨false, 0, 0, 0⟩
  vdevList := []
  bootfsNode := some 1
  pwd := some 1

/-- The characters of a string are in memory. -/
theorem mem_of_strEq {cs : List UInt8} {f : ℕ → UInt8} (h : strEq cs f = true) {b : UInt8}
    (hb : b ∈ cs) : ∃ j, f j = b := by
  induction cs generalizing f with
  | nil => exact absurd hb List.not_mem_nil
  | cons a cs ih =>
    rw [strEq, Bool.and_eq_true, beq_iff_eq] at h
    rcases List.mem_cons.mp hb with rfl | hb
    · exact ⟨0, h.1⟩
    · obtain ⟨j, hj⟩ := ih h.2 hb
      exact ⟨j + 1, hj⟩

theorem rootEntry_ne (j : ℕ) : rootEntry j ≠ SLASH := by
  unfold rootEntry
  split <;> decide

theorem rootFiles_tree : Tree {1, 4} ∅ (rootFiles 16) where
  toSound := rootFiles_sound (by norm_num) (by norm_num)
  types i hi := by
    rcases (by simpa using hi : i = 1 ∨ i = 4) with rfl | rfl
    · exact .inr rfl
    · exact .inl rfl
  mapped d hd htype k hk := by
    rcases (by simpa using hd : d = 1 ∨ d = 4) with rfl | rfl
    · obtain rfl : k = 0 := Nat.lt_one_iff.mp hk
      refine ⟨by norm_num, ?_⟩
      rw [show bmap (rootFiles 16).vol 1 0 = 3 from rootVolume_bmap]
      norm_num
    · exact absurd htype (by simp [rootFiles, rootVolume, fileDin])
  names d hd htype slot _ name ino hn := by
    rcases (by simpa using hd : d = 1 ∨ d = 4) with rfl | rfl
    · intro hslash
      obtain ⟨j, hj⟩ := mem_of_strEq hn.name hslash
      have hslot : slot = 0 := by
        by_contra hne
        exact hn.block (rootVolume_bmap.trans (if_neg hne))
      have hmap : bmap (rootFiles 16).vol 1 slot = 3 := by
        rw [show bmap (rootFiles 16).vol 1 slot = _ from rootVolume_bmap, if_pos hslot, if_pos rfl]
      rw [hmap, entryName] at hj
      split at hj
      · exact absurd hj (by decide)
      · exact rootEntry_ne _ hj
    · exact absurd htype (by simp [rootFiles, rootVolume, fileDin])
  idle i hi := by
    simp only [rootFiles] at hi ⊢
    split at hi
    · cases hi
    · next hne => rw [if_neg hne]
  opens i := by
    simp only [rootFiles]
    split <;> exact Nat.zero_le _

theorem rootVfs_rooted : Rooted {1, 4} ∅ rootVfs := by
  have hroot : Anchored {1, 4} rootVfs.files 1 := ⟨by decide, rfl, rfl, Nat.one_pos⟩
  refine ⟨rootFiles_tree, hroot, fun i hi => ?_, fun i hi => ?_, fun _ => le_rfl⟩
  · obtain rfl := Option.some.inj hi
    exact hroot
  · obtain rfl := Option.some.inj hi
    exact hroot

end Vfs

end UCore.Fs
