import UCore.Fs.LookupPath

/-!
# Fs/PathBuffer — a path is looked up in its buffer

`vfs_open` has the same buffer for `vfs_lookup` and for `vfs_lookup_parent`, and `get_device` ends the
name of a device with a NUL in it:

    d e v : a \0   ──get_device──▸   d e v \0 a \0
    the root of dev, a               pwd, dev
-/

namespace UCore.Fs

open Sfs Act

namespace Vfs

/-- The string in a buffer: the bytes before its NUL. -/
def cstr (buf : List UInt8) : List UInt8 := buf.takeWhile (· != 0)

/-- The buffer of a path, and the file system. -/
structure PathState where
  vfs : Vfs
  buf : List UInt8

/-- A call that is given the buffer. -/
abbrev PathCall (α : Type) := Act.Fallible PathState Assertion ℤ α

/-- A call that is not. -/
def onVfs {α : Type} (m : Call α) : PathCall α :=
  Act.zoome (fun t : PathState => t.vfs) (fun s t => { t with vfs := s }) m

/-- The first character from `k` on that is not a slash. -/
def skipFrom (buf : List UInt8) (k : ℕ) : ℕ := k + ((buf.drop k).takeWhile (· == SLASH)).length

/-- `get_device`: the place in the buffer where the rest of the path begins, and the inode to start
at. -/
def getDeviceAt : PathCall (ℕ × Inode) := do
  let path := cstr (← get).buf
  let (slash, colon) := getDeviceScan path 0
  if colon < 0 ∧ slash ≠ 0 then
    let node ← onVfs vfsGetCurdir
    return (0, node)
  else if colon > 0 then
    modify fun t => { t with buf := t.buf.set colon.toNat 0 }
    let subpath := skipFrom (← get).buf (colon.toNat + 1)
    let node ← onVfs (vfsGetRoot (cstr (← get).buf))
    return (subpath, node)
  else if path.head? = some SLASH then
    let node ← onVfs vfsGetBootfs
    return (skipFrom (← get).buf 1, node)
  else
    Act.demand .devicePath (path.head? = some COLON)
    let node ← onVfs vfsGetCurdir
    let root ← onVfs fsopGetRoot
    onVfs (vopRefDec node)
    return (skipFrom (← get).buf 1, root)

/-- `vfs_lookup`. -/
def vfsLookupAt : PathCall Inode := do
  let (subpath, node) ← getDeviceAt
  let path := cstr ((← get).buf.drop subpath)
  if path ≠ [] then
    Act.andThen (onVfs (vopLookup path node)) (onVfs (vopRefDec node))
  else
    return node

/-- `vfs_lookup_parent`: `*endp` and `*node_store`. -/
def vfsLookupParent : PathCall (ℕ × Inode) := getDeviceAt

/-- What a call comes to, if it fails no assertion. -/
def outcome {σ ε ρ α : Type} (m : Act.Fallible σ ε ρ α) (s : σ) : Option (Except ρ α) :=
  match m.run s with
  | .ok (r, _) => some r
  | .error _ => none

/-- **The place that `vfs_lookup_parent` comes to**: what is left of the path, and the inode to start
at. -/
def place (t : PathState) : Option (Except ℤ (List UInt8 × Inode)) :=
  outcome (do
    let (endp, node) ← vfsLookupParent
    return (cstr ((← get).buf.drop endp), node)) t

/-! ## Strings in a buffer -/

section Strings

variable {buf name rest : List UInt8} {b : UInt8} {k : ℕ}

theorem cstr_cons_of_ne (hb : b ≠ 0) : cstr (b :: buf) = b :: cstr buf := by
  rw [cstr, List.takeWhile_cons_of_pos (by simpa using hb), cstr]

theorem cstr_zero : cstr (0 :: buf) = [] := by
  rw [cstr, List.takeWhile_cons_of_neg (by simp)]

/-- Slashes are skipped in the buffer as in the string. -/
theorem cstr_dropWhile (buf : List UInt8) : cstr (buf.dropWhile (· == SLASH)) = skipSlashes (cstr buf) := by
  induction buf with
  | nil => rfl
  | cons b buf ih =>
    by_cases hs : b = SLASH
    · rw [hs, List.dropWhile_cons_of_pos (by simp), ih, cstr_cons_of_ne (by decide), skipSlashes_slash]
    · rw [List.dropWhile_cons_of_neg (by simpa using hs)]
      by_cases h0 : b = 0
      · rw [h0, cstr_zero, skipSlashes, List.dropWhile_nil]
      · rw [cstr_cons_of_ne h0, skipSlashes_of_ne hs]

theorem cstr_skipFrom : cstr (buf.drop (skipFrom buf k)) = skipSlashes (cstr (buf.drop k)) := by
  have hdrop : ∀ l : List UInt8, l.drop (l.takeWhile (· == SLASH)).length = l.dropWhile (· == SLASH) :=
    fun l => by
      have h : (l.takeWhile (· == SLASH) ++ l.dropWhile (· == SLASH)).drop
          (l.takeWhile (· == SLASH)).length = l.dropWhile (· == SLASH) := List.drop_left
      rwa [List.takeWhile_append_dropWhile] at h
  rw [skipFrom, ← List.drop_drop, hdrop, cstr_dropWhile]

/-- **A NUL ends the string.** -/
theorem cstr_set (buf : List UInt8) (k : ℕ) : cstr (buf.set k 0) = (cstr buf).take k := by
  induction buf generalizing k with
  | nil => simp [cstr]
  | cons b buf ih =>
    cases k with
    | zero => rw [List.set_cons_zero, cstr_zero, List.take_zero]
    | succ k =>
      rw [List.set_cons_succ]
      by_cases h0 : b = 0
      · rw [h0, cstr_zero, cstr_zero, List.take_nil]
      · rw [cstr_cons_of_ne h0, cstr_cons_of_ne h0, ih, List.take_succ_cons]

/-- What follows a place in the string. -/
theorem cstr_drop (hk : k ≤ (cstr buf).length) : cstr (buf.drop k) = (cstr buf).drop k := by
  induction buf generalizing k with
  | nil => simp [cstr]
  | cons b buf ih =>
    cases k with
    | zero => rfl
    | succ k =>
      have h0 : b ≠ 0 := fun h0 => by
        rw [h0, cstr_zero] at hk
        exact absurd hk (Nat.not_succ_le_zero k)
      rw [cstr_cons_of_ne h0, List.length_cons] at hk
      rw [cstr_cons_of_ne h0, List.drop_succ_cons, List.drop_succ_cons, ih (Nat.le_of_succ_le_succ hk)]

end Strings

/-! ## The calls in the buffer are those on the string -/

section Refines

variable {s : Vfs} {buf name rest : List UInt8} {Q : ℕ × Inode → PathState → Prop}
  {R : ℤ → PathState → Prop} {E : Assertion → Prop}

/-- The buffer after `get_device`. -/
def written (buf : List UInt8) : List UInt8 :=
  let colon := (getDeviceScan (cstr buf) 0).2
  if 0 < colon then buf.set colon.toNat 0 else buf

/-- A colon that is not first ends a name. -/
theorem colon_pos {path : List UInt8} (h : 0 < (getDeviceScan path 0).2) :
    ∃ name rest, name ≠ [] ∧ Plain name ∧ path = name ++ COLON :: rest := by
  rcases plain_cases path with hp | ⟨name, rest, hp, rfl⟩ | ⟨name, rest, hp, rfl⟩
  · rw [scan_plain hp] at h
    exact absurd h (by decide)
  · refine ⟨name, rest, ?_, hp, rfl⟩
    rintro rfl
    rw [scan_colon hp] at h
    exact absurd h (by simp)
  · rw [scan_slash hp] at h
    exact absurd h (show ¬ 0 < (-1 : ℤ) by decide)

/-- **`get_device` in the buffer** comes to the place that it comes to on the string. -/
theorem wpe_getDeviceAt (h : wpe (getDevice (cstr buf)) (fun r s' => ∀ k,
      cstr ((written buf).drop k) = r.1 → Q (k, r.2) ⟨s', written buf⟩)
      (fun e s' => R e ⟨s', written buf⟩) E s) : wpe getDeviceAt Q R E ⟨s, buf⟩ := by
  rw [getDeviceAt, wpe_bind, wpe_get]
  dsimp only
  rw [getDevice] at h
  rw [written] at h
  have hcolon : 0 < (getDeviceScan (cstr buf) 0).2 → _ := colon_pos
  cases hscan : getDeviceScan (cstr buf) 0 with
  | mk slash colon =>
    rw [hscan] at h hcolon
    dsimp only at h hcolon ⊢
    rw [wpe_ite] at h ⊢
    refine ⟨fun hrel => ?_, fun hrel => ?_⟩
    · have h := h.1 hrel
      rw [if_neg (by omega), wpe_bind] at h
      rw [wpe_bind, onVfs, wpe_zoome]
      exact wpe_mono h (fun n s' hQ => hQ 0 rfl) (fun _ _ => id) fun _ => id
    · have h := h.2 hrel
      rw [wpe_ite] at h ⊢
      refine ⟨fun hpos => ?_, fun hneg => ?_⟩
      · obtain ⟨name, rest, hne, hname, hpath⟩ := hcolon hpos
        rw [hpath, scan_colon hname, zero_add, Prod.mk.injEq] at hscan
        obtain ⟨-, rfl⟩ := hscan
        have hlt : name.length < (cstr buf).length := by
          rw [hpath, List.length_append, List.length_cons]
          omega
        have h := h.1 hpos
        rw [if_pos hpos, wpe_bind] at h
        simp only [wpe_bind, wpe_modify, wpe_get, onVfs, wpe_zoome, Int.toNat_natCast] at h ⊢
        rw [cstr_set]
        refine wpe_mono h (fun n s' hQ => hQ _ ?_) (fun _ _ => id) fun _ => id
        rw [cstr_skipFrom, List.drop_set_of_lt (Nat.lt_succ_self _), cstr_drop hlt]
      · have h := h.2 hneg
        rw [if_neg hneg] at h
        have hskip : ∀ c, (cstr buf).head? = some c →
            cstr (buf.drop (skipFrom buf 1)) = skipSlashes (cstr buf).tail := fun c hc => by
          have hlen : 1 ≤ (cstr buf).length := List.length_pos_of_mem (List.mem_of_head? hc)
          rw [cstr_skipFrom, cstr_drop hlen, List.drop_one]
        rw [wpe_ite] at h ⊢
        refine ⟨fun hhead => ?_, fun hhead => ?_⟩
        · have h := h.1 hhead
          simp only [wpe_bind, wpe_get, onVfs, wpe_zoome] at h ⊢
          exact wpe_mono h (fun n s' hQ => hQ _ (hskip _ hhead)) (fun _ _ => id) fun _ => id
        · have h := h.2 hhead
          simp only [wpe_bind, wpe_get, onVfs, wpe_zoome, wpe_demand] at h ⊢
          refine ⟨fun hc => ?_, h.2⟩
          refine wpe_mono (h.1 hc) (fun n s₁ h => ?_) (fun _ _ => id) fun _ => id
          refine wpe_mono h (fun m s₂ h => ?_) (fun _ _ => id) fun _ => id
          exact wpe_mono h (fun _ s₃ hQ => hQ _ (hskip _ hc)) (fun _ _ => id) fun _ => id

/-- **`vfs_lookup` in the buffer** is the lookup of the string. -/
theorem wpe_vfsLookupAt {Q : Inode → PathState → Prop} (h : wpe (vfsLookup (cstr buf))
      (fun n s' => Q n ⟨s', written buf⟩) (fun e s' => R e ⟨s', written buf⟩) E s) :
    wpe vfsLookupAt Q R E ⟨s, buf⟩ := by
  rw [vfsLookup, wpe_bind] at h
  rw [vfsLookupAt, wpe_bind]
  refine wpe_getDeviceAt (wpe_mono h (fun r s' h k hk => ?_) (fun _ _ => id) fun _ => id)
  simp only [wpe_bind, wpe_get] at h ⊢
  rw [hk]
  rw [wpe_ite] at h ⊢
  simp only [onVfs, wpe_andThen, wpe_zoome] at h ⊢
  exact h

theorem wpe_outcome {σ ε ρ α : Type} (m : Act.Fallible σ ε ρ α) (s : σ) :
    wpe m (fun a _ => outcome m s = some (.ok a)) (fun e _ => outcome m s = some (.error e))
      (fun _ => outcome m s = none) s := by
  unfold wpe wp outcome
  cases m.run s with
  | error e => rfl
  | ok r =>
    obtain ⟨r, s'⟩ := r
    cases r <;> rfl

theorem outcome_eq {σ ε ρ α : Type} {m : Act.Fallible σ ε ρ α} {s : σ} {x : Option (Except ρ α)}
    (h : wpe m (fun a _ => x = some (.ok a)) (fun e _ => x = some (.error e)) (fun _ => x = none) s) :
    outcome m s = x := by
  unfold wpe wp at h
  unfold outcome
  cases hrun : m.run s with
  | error e =>
    rw [hrun] at h
    exact h.symm
  | ok r =>
    obtain ⟨r, s'⟩ := r
    rw [hrun] at h
    cases r <;> exact h.symm

/-- **The place depends on the string alone.** -/
theorem place_eq : place ⟨s, buf⟩ = outcome (getDevice (cstr buf)) s := by
  refine outcome_eq ?_
  rw [wpe_bind, vfsLookupParent]
  refine wpe_getDeviceAt (wpe_mono (wpe_outcome _ s) (fun r s' hr k hk => ?_) (fun _ _ => id) fun _ => id)
  simp only [wpe_bind, wpe_get, wpe_pure]
  rw [hk]
  exact hr

end Refines

/-! ## Looking up twice -/

section Twice

variable {s u : Vfs} {t : PathState} {inos loose : Finset ℕ} {buf name rest : List UInt8} {n : Inode}
  {c : Inode → ℕ}

/-- What a call does not change: the current directory, and the devices. -/
def SameSite (s u : Vfs) : Prop := u.pwd = s.pwd ∧ u.vdevList = s.vdevList

theorem keeps_onFileSys {α : Type} (m : Fs.Call α) : Keeps (SameSite s) (onFileSys m) := fun u h => by
  rw [onFileSys, wpe_zoome]
  exact wpe_mono (wpe_outcome m u.files) (fun _ _ _ => h) (fun _ _ _ => h) fun _ _ => trivial

theorem keeps_vopRefInc (n : Inode) : Keeps (SameSite s) (vopRefInc n) := by
  cases n with
  | sfs i => exact keeps_onFileSys _
  | dev d => exact .modify fun _ => id

theorem keeps_vopRefDec (n : Inode) : Keeps (SameSite s) (vopRefDec n) := by
  cases n with
  | sfs i => exact keeps_onFileSys _
  | dev d => exact .bind .get fun _ => .bind .demand fun _ => .modify fun _ => id

theorem keeps_vfsGetCurdir : Keeps (SameSite s) vfsGetCurdir := by
  refine .bind .get fun u => ?_
  cases u.pwd with
  | some i => exact .bind (keeps_vopRefInc _) fun _ => .pure _
  | none => exact .throw _

theorem keeps_vfsGetBootfs : Keeps (SameSite s) vfsGetBootfs := by
  refine .bind .get fun u => ?_
  cases u.bootfsNode with
  | some i => exact .bind (keeps_vopRefInc _) fun _ => .pure _
  | none => exact .throw _

theorem keeps_fsopGetRoot : Keeps (SameSite s) fsopGetRoot := fun u hu => by
  rw [fsopGetRoot, wpe_bind, wpe_attempt]
  exact wpe_mono (keeps_onFileSys _ u hu) (fun _ _ h => h) (fun _ _ _ => trivial) fun _ => id

theorem keeps_vfsGetRoot (name : List UInt8) : Keeps (SameSite s) (vfsGetRoot name) := by
  refine .bind .get fun u => ?_
  cases u.vdevList.find? fun vdev => vdev.devname == name with
  | some vdev =>
    exact .ite (fun _ => keeps_fsopGetRoot) fun _ =>
      .ite (fun _ => .bind (keeps_vopRefInc _) fun _ => .pure _) fun _ => .throw _
  | none => exact .throw _

theorem keeps_getDevice (path : List UInt8) : Keeps (SameSite s) (getDevice path) := by
  refine .ite (fun _ => .bind keeps_vfsGetCurdir fun _ => .pure _) fun _ =>
    .ite (fun _ => .bind (keeps_vfsGetRoot _) fun _ => .pure _) fun _ =>
    .ite (fun _ => .bind keeps_vfsGetBootfs fun _ => .pure _) fun _ => ?_
  exact .bind .demand fun _ => .bind keeps_vfsGetCurdir fun n => .bind keeps_fsopGetRoot fun _ =>
    .bind (keeps_vopRefDec n) fun _ => .pure _

theorem keeps_vopLookup (path : List UInt8) (n : Inode) : Keeps (SameSite s) (vopLookup path n) := by
  cases n with
  | sfs i => exact keeps_onFileSys _
  | dev d =>
    exact .bind .get fun _ => .bind .demand fun _ =>
      .ite (fun _ => .throw _) fun _ => .bind (keeps_vopRefInc _) fun _ => .pure _

theorem keeps_vfsLookup (path : List UInt8) : Keeps (SameSite s) (vfsLookup path) :=
  .bind (keeps_getDevice path) fun _ =>
    .ite (fun _ => .andThen (keeps_vopLookup _ _) (keeps_vopRefDec _)) fun _ => .pure _

/-- **The condition**: the path does not begin with the name of a device; or it does, the root of the
device is the current directory, and what follows is that name again. -/
def Unmarked (s : Vfs) (path : List UInt8) : Prop :=
  ∀ name rest, name ≠ [] → Plain name → path = name ++ COLON :: rest →
    ∃ d, s.pwd = some d ∧ DevRoot s name (.sfs d) ∧ skipSlashes rest = name

/-- …for a path that does begin with one. -/
theorem unmarked_iff (hne : name ≠ []) (hname : Plain name) :
    Unmarked s (name ++ COLON :: rest) ↔
      ∃ d, s.pwd = some d ∧ DevRoot s name (.sfs d) ∧ skipSlashes rest = name := by
  refine ⟨fun h => h name rest hne hname rfl, fun h name' rest' _ hname' heq => ?_⟩
  have hscan : getDeviceScan (name ++ COLON :: rest) 0 = _ := scan_colon hname 0
  rw [heq, scan_colon hname' 0, Prod.mk.injEq] at hscan
  have hlen : name.length = name'.length := by omega
  obtain ⟨rfl, hrest⟩ := List.append_inj heq hlen
  rwa [(List.cons.inj hrest).2.symm]

/-- A name by itself is looked up in the current directory. -/
theorem outcome_name (hname : Plain name) : outcome (getDevice name) u =
    match u.pwd with
    | some d => some (.ok (name, .sfs d))
    | none => some (.error (-E_NOENT)) := by
  refine outcome_eq ?_
  rw [getDevice, scan_plain hname]
  dsimp only
  rw [if_pos (by decide), wpe_bind, vfsGetCurdir, wpe_bind, wpe_get]
  cases u.pwd with
  | some d =>
    simp only [vopRefInc, onFileSys, inodeRefInc, setNode, wpe_bind, wpe_zoome, wpe_modify, wpe_get,
      wpe_pure]
  | none => rfl

/-- Behind the name of a device, a path is looked up in its root. -/
theorem outcome_device (h : Rooted inos loose s) (hm : Moved s c u) (hne : name ≠ [])
    (hname : Plain name) : outcome (getDevice (name ++ COLON :: rest)) u =
    match u.vdevList.find? fun vdev => vdev.devname == name with
    | some vdev =>
      if vdev.fs = true then some (.ok (skipSlashes rest, .sfs SFS_BLKN_ROOT))
      else if vdev.mountable = false then some (.ok (skipSlashes rest, .dev vdev.devnode))
      else some (.error (-E_NA_DEV))
    | none => some (.error (-E_NO_DEV)) := by
  have hlen : 0 < name.length := List.length_pos_of_ne_nil hne
  have hdrop : (name ++ COLON :: rest).drop (name.length + 1) = rest := by
    rw [List.drop_append, List.drop_of_length_le (Nat.le_succ _), Nat.add_sub_cancel_left]
    rfl
  refine outcome_eq ?_
  rw [getDevice, scan_colon hname, zero_add]
  dsimp only
  rw [if_neg (by omega), if_pos (by omega), Int.toNat_natCast, List.take_left, hdrop, wpe_bind,
    vfsGetRoot, wpe_bind, wpe_get]
  cases u.vdevList.find? fun vdev => vdev.devname == name with
  | none => rfl
  | some vdev =>
    dsimp only
    rw [wpe_ite]
    refine ⟨fun hfs => ?_, fun hfs => ?_⟩
    · rw [if_pos hfs]
      exact wpe_mono (h.wpe_fsopGetRoot hm) (fun n _ hn => by rw [hn.1]; rfl) (fun _ _ => id) fun _ => id
    · rw [if_neg hfs, wpe_ite]
      refine ⟨fun hmount => ?_, fun hmount => ?_⟩
      · rw [if_pos hmount]
        rfl
      · rw [if_neg hmount]
        rfl

/-- **Looking up twice in one buffer.**  Whatever `vfs_lookup` returns, `vfs_lookup_parent` then comes
to the place that it comes to on a copy of the path, if and only if the condition holds. -/
theorem place_twice_iff {r : Except ℤ Inode} (h : Rooted inos loose s)
    (hrun : vfsLookupAt.run ⟨s, buf⟩ = .ok (r, t)) :
    place t = place { t with buf := buf } ↔ Unmarked s (cstr buf) := by
  have hmoved : wpe (vfsLookup (cstr buf)) (fun _ u => ∃ c, Moved s c u) (fun _ u => ∃ c, Moved s c u)
      (fun _ => True) s := by
    by_cases hsome : ∃ n rest, Starts s (cstr buf) n rest
    · obtain ⟨n, rest, hs⟩ := hsome
      by_cases ha : Accepts s n rest
      · exact wpe_mono (h.wpe_vfsLookup hs ha) (fun _ _ hr => ⟨_, hr.2⟩) (fun _ _ hr => ⟨_, hr.2⟩)
          fun _ => id
      · exact wpe_mono (h.stops_vfsLookup hs ha) (fun _ _ => False.elim) (fun _ _ => False.elim)
          fun _ => id
    · rw [vfsLookup, wpe_bind]
      exact wpe_mono (wpe_getDevice_none fun n rest hs => hsome ⟨n, rest, hs⟩)
        (fun _ _ hf => hf.elim) (fun _ _ hr => ⟨_, hr.2⟩) fun _ => id
  have hfirst : ((∃ c, Moved s c t.vfs) ∧ SameSite s t.vfs) ∧ t.buf = written buf := by
    have hsite := keeps_vfsLookup (s := s) (cstr buf) s ⟨rfl, rfl⟩
    have hend : wpe vfsLookupAt
        (fun _ t => ((∃ c, Moved s c t.vfs) ∧ SameSite s t.vfs) ∧ t.buf = written buf)
        (fun _ t => ((∃ c, Moved s c t.vfs) ∧ SameSite s t.vfs) ∧ t.buf = written buf)
        (fun _ => True) ⟨s, buf⟩ :=
      wpe_vfsLookupAt (wpe_mono (wpe_and hmoved hsite) (fun _ _ hr => ⟨hr, rfl⟩)
        (fun _ _ hr => ⟨hr, rfl⟩) fun _ _ => trivial)
    have hr := wp_of_ok hend hrun
    cases r <;> exact hr
  obtain ⟨⟨⟨c, hm⟩, hpwd, hdevs⟩, hbuf⟩ := hfirst
  obtain ⟨u, _⟩ := t
  dsimp only at hm hpwd hdevs hbuf
  subst hbuf
  rw [place_eq, place_eq]
  by_cases hdev : 0 < (getDeviceScan (cstr buf) 0).2
  · obtain ⟨name, rest, hne, hname, hpath⟩ := colon_pos hdev
    have hwritten : cstr (written buf) = name := by
      rw [written, if_pos hdev, cstr_set, hpath, scan_colon hname, zero_add, Int.toNat_natCast, List.take_left]
    rw [hwritten, hpath, unmarked_iff hne hname, outcome_name hname, outcome_device h hm hne hname, hpwd,
      hdevs]
    -- the two places, by what the device is
    cases hcur : s.pwd with
    | none =>
      refine iff_of_false (fun heq => ?_) fun hsome => by
        obtain ⟨d, hd, -⟩ := hsome
        cases hd
      revert heq
      cases s.vdevList.find? fun vdev => vdev.devname == name with
      | none => simp
      | some vdev =>
        dsimp only
        split_ifs <;> simp
    | some d =>
      cases hfind : s.vdevList.find? fun vdev => vdev.devname == name with
      | none =>
        exact iff_of_false (by simp) fun hsome => by
          obtain ⟨_, _, ⟨vdev, hv, _⟩, _⟩ := hsome
          simp [hfind] at hv
      | some vdev =>
        have hroot : DevRoot s name (.sfs d) ↔ vdev.fs = true ∧ d = SFS_BLKN_ROOT := by
          rw [DevRoot, hfind]
          refine ⟨?_, fun hroot => ⟨vdev, rfl, .inl ⟨hroot.1, by rw [hroot.2]⟩⟩⟩
          rintro ⟨_, hv, ⟨hfs, hd⟩ | ⟨-, -, hd⟩⟩
          · exact ⟨Option.some.inj hv ▸ hfs, Inode.sfs.inj hd⟩
          · cases hd
        dsimp only
        split_ifs with hfs hmount
        · simp [hroot, hfs, eq_comm, and_comm]
        · simp [hroot, hfs]
        · simp [hroot, hfs]
  · refine iff_of_true ?_ fun name rest hne hname hpath => absurd ?_ hdev
    · rw [written, if_neg hdev]
    · rw [hpath, scan_colon hname, zero_add]
      exact Int.natCast_pos.mpr (List.length_pos_of_ne_nil hne)

end Twice

/-! ## A device named `d` -/

/-- The volume with one file, as the file system of the device `d`. -/
def deviceVfs : Vfs := { rootVfs with vdevList := [⟨[100], true, true, 0⟩] }

theorem deviceVfs_rooted : Rooted {1, 4} ∅ deviceVfs :=
  ⟨rootVfs_rooted.tree, rootVfs_rooted.root, rootVfs_rooted.bootfs, rootVfs_rooted.pwd,
    rootVfs_rooted.devOpens⟩

/-- Looking `d:b` up twice: there is no file `b`, and the names are `d` and `b`. -/
def placedTwice : Bool :=
  match vfsLookupAt.run ⟨deviceVfs, [100, 58, 98, 0]⟩ with
  | .ok (.error e, t) => e == -E_NOENT && (match place t, place { t with buf := [100, 58, 98, 0] } with
    | some (.ok (name, _)), some (.ok (name', _)) => name == [100] && name' == [98]
    | _, _ => false)
  | _ => false

/-- **The path `d:b` becomes `d`**: there is no file `b`, and where one is to be made, the name is that
of the device. -/
theorem place_twice_device : Rooted {1, 4} ∅ deviceVfs ∧
    ∃ t, vfsLookupAt.run ⟨deviceVfs, [100, 58, 98, 0]⟩ = .ok (.error (-E_NOENT), t) ∧
      place t ≠ place { t with buf := [100, 58, 98, 0] } := by
  have hrun : placedTwice = true := by decide +kernel
  refine ⟨deviceVfs_rooted, ?_⟩
  unfold placedTwice at hrun
  split at hrun
  · next e t heq =>
    obtain ⟨he, hplaces⟩ := Bool.and_eq_true_iff.mp hrun
    obtain rfl : e = -E_NOENT := beq_iff_eq.mp he
    refine ⟨t, heq, fun hsame => ?_⟩
    rw [hsame] at hplaces
    split at hplaces
    · next hfirst hsecond =>
      obtain ⟨hd, hb⟩ := Bool.and_eq_true_iff.mp hplaces
      rw [hfirst, Option.some.injEq, Except.ok.injEq, Prod.mk.injEq] at hsecond
      rw [hsecond.1, beq_iff_eq] at hd
      rw [hd] at hb
      exact absurd hb (by decide)
    · exact absurd hplaces (by decide)
  · exact absurd hrun (by decide)

/-- A plain name is looked up twice alike. -/
theorem place_twice_plain : ∃ r t, vfsLookupAt.run ⟨deviceVfs, [97, 0]⟩ = .ok (r, t) ∧
    place t = place { t with buf := [97, 0] } := by
  obtain ⟨r, t, heq, -⟩ := Act.exists_of_test (m := vfsLookupAt.run) (s := ⟨deviceVfs, [97, 0]⟩)
    (fun _ _ => true) (by decide +kernel)
  refine ⟨r, t, heq, (place_twice_iff deviceVfs_rooted heq).mpr fun name rest _ _ hpath => ?_⟩
  have hmem : COLON ∈ cstr [97, 0] := hpath ▸ by simp
  exact absurd hmem (by decide)

end Vfs

end UCore.Fs
