import UCore.Machinery.Tally
import UCore.Fs.Share

/-!
# Fs/ShareRun — the counts of shared tables, over any interleaving

    open_count of an entry    =  one if it is open, and one for each operation in flight on it
    open_count of an inode    =  its entries that are open or closed, and the opens on their way

Every count is a tally: of the processes at a place, or of the holders of an inode.  A section moves
one process, and at most one entry with it, so it is enough to say what it does there (`Inv.moved`).
-/

namespace UCore.Fs.Share

open Sfs

variable {s s' : Shared} {p q t t' fd fd' i j k : ℕ} {α : Type}

/-! ## Entries -/

section SetEntry

variable {f : ℕ → ℕ → α} {a b : α}

@[simp] theorem setEntry_self : setEntry f t fd a t fd = a := by simp [setEntry]

theorem setEntry_of_ne (h : (t', fd') ≠ (t, fd)) : setEntry f t fd a t' fd' = f t' fd' := by
  rcases eq_or_ne t' t with rfl | ht
  · have hfd : fd' ≠ fd := fun heq => h (by rw [heq])
    simp [setEntry, hfd]
  · simp [setEntry, ht]

@[simp] theorem setEntry_eq_self : setEntry f t fd (f t fd) = f := by simp [setEntry]

@[simp] theorem setEntry_setEntry : setEntry (setEntry f t fd a) t fd b = setEntry f t fd b := by
  simp [setEntry]

end SetEntry

/-- The operations in flight that the count of an entry stands for. -/
def users (f : File) : ℤ := f.openCount - if f.status = .opened then 1 else 0

/-- Some process has the entry in its hands: it is being opened, or its last user is closing it. -/
def Pending (f : File) : Prop := f.status = .init ∨ f.status = .closed ∧ f.openCount = 0

instance (f : File) : Decidable (Pending f) := inferInstanceAs (Decidable (_ ∨ _))

/-- The inode that an entry has open. -/
def inodeOf (f : File) : Option ℕ :=
  if f.status = .opened ∨ f.status = .closed ∧ 0 < f.openCount then f.node else none

end UCore.Fs.Share

namespace UCore.Fs.Pc

/-- The entry that an operation in flight is on. -/
def uses : Pc → Option (ℕ × ℕ)
  | use t fd _ => some (t, fd)
  | _ => none

/-- The entry that a process opens… -/
def starts : Pc → Option (ℕ × ℕ)
  | lookup t fd _ | opened t fd _ _ | undo t fd _ | undone t fd => some (t, fd)
  | _ => none

/-- …or closes. -/
def ends : Pc → Option (ℕ × ℕ)
  | close t fd _ _ | reclaim t fd _ => some (t, fd)
  | _ => none

/-- The entry in the hands of a process. -/
def owns (c : Pc) : Option (ℕ × ℕ) := c.starts <|> c.ends

/-- The inode that a `vfs_open` has opened, and not recorded yet. -/
def opens : Pc → Option ℕ
  | opened _ _ i _ => some i
  | _ => none

/-- The inode that a process holds a reference to. -/
def holds : Pc → Option ℕ
  | opened _ _ i _ | undo _ _ i | close _ _ i _ => some i
  | _ => none

/-- What the counts of the entries and of the inodes see of a process. -/
def hands (c : Pc) : Option (ℕ × ℕ) × Option (ℕ × ℕ) × Option (ℕ × ℕ) × Option ℕ × Option ℕ :=
  (c.uses, c.starts, c.ends, c.opens, c.holds)

/-- The table that a process works on as one of its members… -/
def member : Pc → Option ℕ
  | lookup t _ _ | opened t _ _ _ | undo t _ _ | undone t _ | use t _ _ | closeall t _ => some t
  | close t _ _ task | reclaim t _ task => if task = .destroy then none else some t
  | _ => none

/-- …or destroys. -/
def destroys : Pc → Option ℕ
  | destroy t _ => some t
  | close t _ _ task | reclaim t _ task => if task = .destroy then some t else none
  | _ => none

/-- How far the destruction has come. -/
def swept : Pc → ℕ
  | destroy _ fd | close _ fd _ _ | reclaim _ fd _ => fd
  | _ => 0

end UCore.Fs.Pc

namespace UCore.Fs.Share

open Sfs

variable {s s' : Shared} {p q t t' fd fd' i j k : ℕ} {α : Type}

/-- Who can hold an inode. -/
inductive Holder where
  | entry (t fd : ℕ)
  | process (p : ℕ)
  | pwd (t : ℕ)
  | other (k : ℕ)
  deriving DecidableEq

/-- The inode that a holder has open. -/
def opensOf (s : Shared) : Holder → Option ℕ
  | .entry t fd => inodeOf (s.fs.fdArray t fd)
  | .process p => (s.pc p).opens
  | .pwd _ | .other _ => none

/-- The inode that a holder has a reference to. -/
def holdsOf (s : Shared) : Holder → Option ℕ
  | .entry t fd => inodeOf (s.fs.fdArray t fd)
  | .process p => (s.pc p).holds
  | .pwd t => s.pwd t
  | .other k => s.other k

/-- **The entries**: each is counted, and is in the hands of one process where it must be. -/
structure Entries (s : Shared) : Prop where
  users : ∀ t fd, Tally (fun c : Pc => c.uses = some (t, fd)) s.pc (users (s.fs.fdArray t fd))
  owners : ∀ t fd, Tally (fun c : Pc => c.owns = some (t, fd)) s.pc
    (if Pending (s.fs.fdArray t fd) then 1 else 0)
  starts : ∀ p t fd, (s.pc p).starts = some (t, fd) → (s.fs.fdArray t fd).status = .init
  ends : ∀ p t fd, (s.pc p).ends = some (t, fd) → (s.fs.fdArray t fd).status = .closed
  unused : ∀ t fd, (s.fs.fdArray t fd).status = .none ∨ (s.fs.fdArray t fd).status = .init →
    (s.fs.fdArray t fd).openCount = 0
  node : ∀ t fd, (s.fs.fdArray t fd).status = .opened ∨ (s.fs.fdArray t fd).status = .closed →
    (s.fs.fdArray t fd).node ≠ none
  once : ∀ t fd, s.opens t fd =
    s.closes t fd + if (inodeOf (s.fs.fdArray t fd)).isSome then 1 else 0

/-- **The tables**: `files_count` counts the processes, and a table that is destroyed has none. -/
structure Tables (s : Shared) : Prop where
  count : ∀ t, Tally (fun o : Option ℕ => o = some t) s.filesp (s.fs.filesCount t)
  alive : ∀ p t, s.filesp p = some t → s.alive t = true
  member : ∀ p t, (s.pc p).member = some t → s.filesp p = some t
  destroys : ∀ p t, (s.pc p).destroys = some t → s.alive t = true ∧ s.fs.filesCount t = 0 ∧
    ∀ fd < (s.pc p).swept, (s.fs.fdArray t fd).status = .none
  single : ∀ p q t, (s.pc p).destroys = some t → (s.pc q).destroys = some t → p = q
  dead : ∀ t fd, s.alive t = false ∨ FILES_STRUCT_NENTRY ≤ fd → (s.fs.fdArray t fd).status = .none
  pwd : ∀ t, (s.alive t = false ∨ ∃ p, (s.pc p).destroys = some t) → s.pwd t = none

/-- **The invariant.** -/
structure Inv (s : Shared) : Prop where
  entries : Entries s
  tables : Tables s
  opens : ∀ i, Tally (fun o : Option ℕ => o = some i) (opensOf s) (s.fs.node i).openCount
  holds : ∀ i, Tally (fun o : Option ℕ => o = some i) (holdsOf s) (s.fs.node i).refCount

/-! ## One process and one entry move -/

/-- **A move**: the process `p` goes to `c`, the entry `fd` of `t` becomes `f`, the reference `k`
becomes `o`, and the counts of the inodes say so. -/
structure Move (s s' : Shared) (p t fd k : ℕ) (c : Pc) (f : File) (o : Option ℕ) (a b : ℕ) : Prop where
  fdArray : s'.fs.fdArray = setEntry s.fs.fdArray t fd f := by simp
  pc : s'.pc = Function.update s.pc p c := by simp
  other : s'.other = Function.update s.other k o := by simp
  pwd : s'.pwd = s.pwd := by rfl
  alive : s'.alive = s.alive := by rfl
  filesp : s'.filesp = s.filesp := by rfl
  filesCount : s'.fs.filesCount = s.fs.filesCount := by rfl
  opens : s'.opens = setEntry s.opens t fd a := by simp
  closes : s'.closes = setEntry s.closes t fd b := by simp
  old : ∀ e, (s.pc p).uses = some e ∨ (s.pc p).owns = some e → e = (t, fd)
  new : ∀ e, c.uses = some e ∨ c.owns = some e → e = (t, fd)
  users : Share.users f = Share.users (s.fs.fdArray t fd) +
    (if c.uses = some (t, fd) then 1 else 0) - if (s.pc p).uses = some (t, fd) then 1 else 0
  owners : ((if Pending f then 1 else 0 : ℤ)) = (if Pending (s.fs.fdArray t fd) then 1 else 0) +
    (if c.owns = some (t, fd) then 1 else 0) - if (s.pc p).owns = some (t, fd) then 1 else 0
  keep : Pending (s.fs.fdArray t fd) → (s.pc p).owns ≠ some (t, fd) →
    f.status = (s.fs.fdArray t fd).status
  starts : c.starts = some (t, fd) → f.status = .init
  ends : c.ends = some (t, fd) → f.status = .closed
  unused : f.status = .none ∨ f.status = .init → f.openCount = 0
  node : f.status = .opened ∨ f.status = .closed → f.node ≠ none
  once : a = b + if (inodeOf f).isSome then 1 else 0
  member : ∀ t', c.member = some t' → s.filesp p = some t'
  destroys : ∀ t', c.destroys = some t' → (s.pc p).destroys = some t' ∧
    ∀ fd' < c.swept, fd' < (s.pc p).swept ∨ (t', fd') = (t, fd) ∧ f.status = .none
  dead : f.status = .none ∨ s.alive t = true ∧ fd < FILES_STRUCT_NENTRY
  fresh : f.status = .none ∨ (s.fs.fdArray t fd).status ≠ .none ∨ ∀ q, (s.pc q).destroys ≠ some t
  openCount : ∀ i, ((s'.fs.node i).openCount : ℤ) = (s.fs.node i).openCount +
    (if inodeOf f = some i then 1 else 0) - (if inodeOf (s.fs.fdArray t fd) = some i then 1 else 0) +
    (if c.opens = some i then 1 else 0) - if (s.pc p).opens = some i then 1 else 0
  refCount : ∀ i, ((s'.fs.node i).refCount : ℤ) = (s.fs.node i).refCount +
    (if inodeOf f = some i then 1 else 0) - (if inodeOf (s.fs.fdArray t fd) = some i then 1 else 0) +
    ((if c.holds = some i then 1 else 0) - if (s.pc p).holds = some i then 1 else 0) +
    (if o = some i then 1 else 0) - if s.other k = some i then 1 else 0

section Move

variable {c : Pc} {f : File} {o : Option ℕ} {a b : ℕ}

theorem Pc.owns_of_starts {c : Pc} {e : ℕ × ℕ} (h : c.starts = some e) : c.owns = some e := by
  rw [Pc.owns, h]
  rfl

theorem Pc.owns_of_ends {c : Pc} {e : ℕ × ℕ} (h : c.ends = some e) : c.owns = some e := by
  cases c <;> simp_all [Pc.owns, Pc.starts, Pc.ends]

/-- What a process has in its hands is pending, and no other process has it. -/
theorem Entries.pending (h : Entries s) (ho : (s.pc p).owns = some (t, fd)) :
    Pending (s.fs.fdArray t fd) := by
  have hpos := (h.owners t fd).pos_iff.mpr ⟨p, ho⟩
  by_contra hno
  rw [if_neg hno] at hpos
  exact lt_irrefl _ hpos

theorem Entries.owner_unique (h : Entries s) (hp : (s.pc p).owns = some (t, fd))
    (hq : (s.pc q).owns = some (t, fd)) : p = q :=
  (h.owners t fd).eq_of_le_one (by split <;> norm_num) hp hq

/-- Where a process may be changes one tally for each entry. -/
theorem Move.tally (m : Move s s' p t fd k c f o a b) {g : Pc → Option (ℕ × ℕ)} {F F' : ℕ → ℕ → ℤ}
    (h : ∀ t fd, Tally (fun c => g c = some (t, fd)) s.pc (F t fd))
    (hold : ∀ e, g (s.pc p) = some e → e = (t, fd)) (hnew : ∀ e, g c = some e → e = (t, fd))
    (hself : F' t fd = F t fd + (if g c = some (t, fd) then 1 else 0) -
      if g (s.pc p) = some (t, fd) then 1 else 0)
    (hother : ∀ t' fd', (t', fd') ≠ (t, fd) → F' t' fd' = F t' fd') (t' fd' : ℕ) :
    Tally (fun c => g c = some (t', fd')) s'.pc (F' t' fd') := by
  have hmove := (h t' fd').move p c
  rw [← m.pc] at hmove
  rcases eq_or_ne (t', fd') (t, fd) with he | he
  · obtain ⟨rfl, rfl⟩ := Prod.mk.inj he
    rwa [hself]
  · rw [if_neg fun hc => he (hnew _ hc), if_neg fun hc => he (hold _ hc)] at hmove
    rw [hother t' fd' he]
    simpa using hmove

/-- The entries, after a move. -/
theorem Move.entries (m : Move s s' p t fd k c f o a b) (h : Entries s) : Entries s' := by
  have hne : ∀ t' fd', (t', fd') ≠ (t, fd) → s'.fs.fdArray t' fd' = s.fs.fdArray t' fd' :=
    fun t' fd' he => by rw [m.fdArray, setEntry_of_ne he]
  have hself : s'.fs.fdArray t fd = f := by rw [m.fdArray, setEntry_self]
  have hpc : ∀ q, q ≠ p → s'.pc q = s.pc q := fun q hq => by rw [m.pc, Function.update_of_ne hq]
  have hpcp : s'.pc p = c := by rw [m.pc, Function.update_self]
  -- an entry in other hands keeps its status
  have hkeep : ∀ q, q ≠ p → (s.pc q).owns = some (t, fd) → f.status = (s.fs.fdArray t fd).status :=
    fun q hq ho => m.keep (h.pending ho) fun hp => hq (h.owner_unique ho hp)
  refine ⟨m.tally h.users (fun e he => m.old e (.inl he)) (fun e he => m.new e (.inl he)) ?_ ?_,
    m.tally h.owners (fun e he => m.old e (.inr he)) (fun e he => m.new e (.inr he)) ?_ ?_,
    fun q t' fd' hq => ?_, fun q t' fd' hq => ?_, fun t' fd' hst => ?_, fun t' fd' hst => ?_,
    fun t' fd' => ?_⟩
  · rw [hself, m.users]
  · exact fun t' fd' he => by rw [hne t' fd' he]
  · rw [hself, m.owners]
  · exact fun t' fd' he => by rw [hne t' fd' he]
  · rcases eq_or_ne q p with rfl | hqp
    · rw [hpcp] at hq
      obtain ⟨rfl, rfl⟩ := Prod.mk.inj (m.new _ (.inr (Pc.owns_of_starts hq)))
      rw [hself]
      exact m.starts hq
    · rw [hpc q hqp] at hq
      rcases eq_or_ne (t', fd') (t, fd) with he | he
      · obtain ⟨rfl, rfl⟩ := Prod.mk.inj he
        rw [hself, hkeep q hqp (Pc.owns_of_starts hq)]
        exact h.starts q t' fd' hq
      · rw [hne t' fd' he]
        exact h.starts q t' fd' hq
  · rcases eq_or_ne q p with rfl | hqp
    · rw [hpcp] at hq
      obtain ⟨rfl, rfl⟩ := Prod.mk.inj (m.new _ (.inr (Pc.owns_of_ends hq)))
      rw [hself]
      exact m.ends hq
    · rw [hpc q hqp] at hq
      rcases eq_or_ne (t', fd') (t, fd) with he | he
      · obtain ⟨rfl, rfl⟩ := Prod.mk.inj he
        rw [hself, hkeep q hqp (Pc.owns_of_ends hq)]
        exact h.ends q t' fd' hq
      · rw [hne t' fd' he]
        exact h.ends q t' fd' hq
  · rcases eq_or_ne (t', fd') (t, fd) with he | he
    · obtain ⟨rfl, rfl⟩ := Prod.mk.inj he
      rw [hself] at hst ⊢
      exact m.unused hst
    · rw [hne t' fd' he] at hst ⊢
      exact h.unused t' fd' hst
  · rcases eq_or_ne (t', fd') (t, fd) with he | he
    · obtain ⟨rfl, rfl⟩ := Prod.mk.inj he
      rw [hself] at hst ⊢
      exact m.node hst
    · rw [hne t' fd' he] at hst ⊢
      exact h.node t' fd' hst
  · rw [m.opens, m.closes]
    rcases eq_or_ne (t', fd') (t, fd) with he | he
    · obtain ⟨rfl, rfl⟩ := Prod.mk.inj he
      rw [hself, setEntry_self, setEntry_self]
      exact m.once
    · rw [hne t' fd' he, setEntry_of_ne he, setEntry_of_ne he]
      exact h.once t' fd'

/-- A table that some process is a member of has a positive count. -/
theorem Tables.count_pos (h : Tables s) (hp : s.filesp p = some t) : 0 < s.fs.filesCount t := by
  have := (h.count t).pos_iff.mpr ⟨p, hp⟩
  exact_mod_cast this

/-- The tables, after a move. -/
theorem Move.tables (m : Move s s' p t fd k c f o a b) (h : Tables s) : Tables s' := by
  have hne : ∀ t' fd', (t', fd') ≠ (t, fd) → s'.fs.fdArray t' fd' = s.fs.fdArray t' fd' :=
    fun t' fd' he => by rw [m.fdArray, setEntry_of_ne he]
  have hself : s'.fs.fdArray t fd = f := by rw [m.fdArray, setEntry_self]
  have hpc : ∀ q, q ≠ p → s'.pc q = s.pc q := fun q hq => by rw [m.pc, Function.update_of_ne hq]
  have hpcp : s'.pc p = c := by rw [m.pc, Function.update_self]
  have hdes : ∀ q t', (s'.pc q).destroys = some t' → (s.pc q).destroys = some t' := by
    intro q t' hq
    rcases eq_or_ne q p with rfl | hqp
    · rw [hpcp] at hq
      exact (m.destroys t' hq).1
    · rwa [hpc q hqp] at hq
  refine ⟨fun t' => ?_, fun q t' hq => ?_, fun q t' hq => ?_, fun q t' hq => ?_,
    fun q q' t' hq hq' => h.single q q' t' (hdes q t' hq) (hdes q' t' hq'), fun t' fd' hd => ?_,
    fun t' hd => ?_⟩
  · rw [m.filesp, m.filesCount]
    exact h.count t'
  · rw [m.filesp] at hq
    rw [m.alive]
    exact h.alive q t' hq
  · rw [m.filesp]
    rcases eq_or_ne q p with rfl | hqp
    · rw [hpcp] at hq
      exact m.member t' hq
    · rw [hpc q hqp] at hq
      exact h.member q t' hq
  · obtain ⟨halive, hzero, hswept⟩ := h.destroys q t' (hdes q t' hq)
    refine ⟨by rw [m.alive]; exact halive, by rw [m.filesCount]; exact hzero, fun fd' hfd' => ?_⟩
    have hlow : (t', fd') = (t, fd) ∧ f.status = .none ∨ fd' < (s.pc q).swept := by
      rcases eq_or_ne q p with rfl | hqp
      · rw [hpcp] at hq hfd'
        exact ((m.destroys t' hq).2 fd' hfd').symm
      · rw [hpc q hqp] at hfd'
        exact .inr hfd'
    rcases hlow with ⟨he, hst⟩ | hlow
    · obtain ⟨rfl, rfl⟩ := Prod.mk.inj he
      rwa [hself]
    · rcases eq_or_ne (t', fd') (t, fd) with he | he
      · obtain ⟨rfl, rfl⟩ := Prod.mk.inj he
        rw [hself]
        rcases m.fresh with hst | hst | hst
        · exact hst
        · exact absurd (hswept fd' hlow) hst
        · exact absurd (hdes q t' hq) (hst q)
      · rw [hne t' fd' he]
        exact hswept fd' hlow
  · rcases eq_or_ne (t', fd') (t, fd) with he | he
    · obtain ⟨rfl, rfl⟩ := Prod.mk.inj he
      rw [hself]
      rcases m.dead with hst | ⟨halive, hlt⟩
      · exact hst
      · rw [m.alive, halive] at hd
        simp only [Bool.true_eq_false, false_or] at hd
        omega
    · rw [hne t' fd' he]
      rw [m.alive] at hd
      exact h.dead t' fd' hd
  · rw [m.alive] at hd
    rw [m.pwd]
    exact h.pwd t' (hd.imp_right fun ⟨q, hq⟩ => ⟨q, hdes q t' hq⟩)

/-- **A move keeps the invariant.** -/
theorem Inv.moved (h : Inv s) (p t fd k : ℕ) (c : Pc) (f : File) (o : Option ℕ) (a b : ℕ)
    (m : Move s s' p t fd k c f o a b) : Inv s' := by
  refine ⟨m.entries h.entries, m.tables h.tables, fun i => ?_, fun i => ?_⟩
  · have hof : opensOf s' = Function.update (Function.update (opensOf s) (.entry t fd) (inodeOf f))
        (.process p) c.opens := by
      funext x
      cases x with
      | entry t' fd' =>
        rcases eq_or_ne (t', fd') (t, fd) with he | he
        · obtain ⟨rfl, rfl⟩ := Prod.mk.inj he
          simp [opensOf, m.fdArray]
        · have hx : Holder.entry t' fd' ≠ .entry t fd := by simpa using he
          simp [opensOf, m.fdArray, setEntry_of_ne he, hx]
      | process q =>
        rcases eq_or_ne q p with rfl | hq
        · simp [opensOf, m.pc]
        · simp [opensOf, m.pc, hq]
      | pwd t' => simp [opensOf]
      | other k' => simp [opensOf]
    have hmove := ((h.opens i).move (.entry t fd) (inodeOf f)).move (.process p) c.opens
    rw [← hof] at hmove
    rw [m.openCount]
    exact hmove
  · have hof : holdsOf s' = Function.update (Function.update (Function.update (holdsOf s)
        (.entry t fd) (inodeOf f)) (.process p) c.holds) (.other k) o := by
      funext x
      cases x with
      | entry t' fd' =>
        rcases eq_or_ne (t', fd') (t, fd) with he | he
        · obtain ⟨rfl, rfl⟩ := Prod.mk.inj he
          simp [holdsOf, m.fdArray]
        · have hx : Holder.entry t' fd' ≠ .entry t fd := by simpa using he
          simp [holdsOf, m.fdArray, setEntry_of_ne he, hx]
      | process q =>
        rcases eq_or_ne q p with rfl | hq
        · simp [holdsOf, m.pc]
        · simp [holdsOf, m.pc, hq]
      | pwd t' => simp [holdsOf, m.pwd]
      | other k' =>
        rcases eq_or_ne k' k with rfl | hk
        · simp [holdsOf, m.other]
        · simp [holdsOf, m.other, hk]
    have hmove := (((h.holds i).move (.entry t fd) (inodeOf f)).move (.process p) c.holds).move
      (.other k) o
    rw [← hof] at hmove
    rw [m.refCount]
    rw [Function.update_of_ne (show Holder.process p ≠ .entry t fd by simp),
      Function.update_of_ne (show Holder.other k ≠ .process p by simp),
      Function.update_of_ne (show Holder.other k ≠ .entry t fd by simp),
      add_sub_assoc _ (if c.holds = some i then (1 : ℤ) else 0)] at hmove
    exact hmove

end Move

/-! ## The tables move -/

section Regroup

/-- The entries, where no process has another one in its hands. -/
theorem Entries.congr (h : Entries s) (hhands : ∀ q, (s'.pc q).hands = (s.pc q).hands)
    (hfd : s'.fs.fdArray = s.fs.fdArray) (hopens : s'.opens = s.opens)
    (hcloses : s'.closes = s.closes) : Entries s' := by
  have huses : ∀ q, (s'.pc q).uses = (s.pc q).uses := fun q => congrArg (·.1) (hhands q)
  have hstarts : ∀ q, (s'.pc q).starts = (s.pc q).starts := fun q => congrArg (·.2.1) (hhands q)
  have hends : ∀ q, (s'.pc q).ends = (s.pc q).ends := fun q => congrArg (·.2.2.1) (hhands q)
  have howns : ∀ q, (s'.pc q).owns = (s.pc q).owns := fun q => by
    rw [Pc.owns, Pc.owns, hstarts, hends]
  refine ⟨fun t fd => ?_, fun t fd => ?_, fun q t fd hq => ?_, fun q t fd hq => ?_, ?_, ?_, ?_⟩
  · rw [hfd]
    exact (h.users t fd).congr fun q => by rw [huses]
  · rw [hfd]
    exact (h.owners t fd).congr fun q => by rw [howns]
  · rw [hfd]
    exact h.starts q t fd (hstarts q ▸ hq)
  · rw [hfd]
    exact h.ends q t fd (hends q ▸ hq)
  · rw [hfd]
    exact h.unused
  · rw [hfd]
    exact h.node
  · rw [hfd, hopens, hcloses]
    exact h.once

/-- **What the tables and the rest of the kernel do** leaves the entries alone: the `pwd` of `t` becomes
`o`, and the reference `k` becomes `o'`. -/
theorem Inv.regroup (h : Inv s) (t k : ℕ) (o o' : Option ℕ) (htables : Tables s')
    (hhands : ∀ q, (s'.pc q).hands = (s.pc q).hands) (hfd : s'.fs.fdArray = s.fs.fdArray)
    (hopens : s'.opens = s.opens) (hcloses : s'.closes = s.closes)
    (hpwd : s'.pwd = Function.update s.pwd t o) (hother : s'.other = Function.update s.other k o')
    (hopen : ∀ i, (s'.fs.node i).openCount = (s.fs.node i).openCount)
    (href : ∀ i, ((s'.fs.node i).refCount : ℤ) = (s.fs.node i).refCount +
      (if o = some i then 1 else 0) - (if s.pwd t = some i then 1 else 0) +
      (if o' = some i then 1 else 0) - if s.other k = some i then 1 else 0) : Inv s' := by
  refine ⟨h.entries.congr hhands hfd hopens hcloses, htables, fun i => ?_, fun i => ?_⟩
  · have hof : opensOf s' = opensOf s := by
      funext x
      cases x with
      | entry t fd => simp [opensOf, hfd]
      | process q => exact congrArg (·.2.2.2.1) (hhands q)
      | pwd t => rfl
      | other k => rfl
    rw [hof, hopen]
    exact h.opens i
  · have hholds : ∀ q, (s'.pc q).holds = (s.pc q).holds := fun q => congrArg (·.2.2.2.2) (hhands q)
    have hof : holdsOf s' = Function.update (Function.update (holdsOf s) (.pwd t) o) (.other k) o' := by
      funext x
      cases x with
      | entry t fd => simp [holdsOf, hfd]
      | process q => simpa [holdsOf] using hholds q
      | pwd t' =>
        rcases eq_or_ne t' t with rfl | ht
        · simp [holdsOf, hpwd]
        · simp [holdsOf, hpwd, ht]
      | other k' =>
        rcases eq_or_ne k' k with rfl | hk
        · simp [holdsOf, hother]
        · simp [holdsOf, hother, hk]
    have hmove := ((h.holds i).move (.pwd t) o).move (.other k) o'
    rw [← hof, Function.update_of_ne (show Holder.other k ≠ .pwd t by simp)] at hmove
    rw [href]
    exact hmove

/-- The tables, where nothing happens to them. -/
theorem Tables.congr (h : Tables s) (hfd : s'.fs.fdArray = s.fs.fdArray)
    (hcount : s'.fs.filesCount = s.fs.filesCount) (halive : s'.alive = s.alive)
    (hfilesp : s'.filesp = s.filesp) (hpc : s'.pc = s.pc)
    (hpwd : ∀ t, (s.alive t = false ∨ ∃ p, (s.pc p).destroys = some t) → s'.pwd t = none) :
    Tables s' := by
  obtain ⟨fs', pwd', alive', filesp', pc', other', opens', closes'⟩ := s'
  obtain rfl : alive' = s.alive := halive
  obtain rfl : filesp' = s.filesp := hfilesp
  obtain rfl : pc' = s.pc := hpc
  dsimp only at hfd hcount
  refine ⟨?_, h.alive, h.member, ?_, h.single, ?_, hpwd⟩
  · rw [hcount]
    exact h.count
  · rw [hcount, hfd]
    exact h.destroys
  · rw [hfd]
    exact h.dead

end Regroup

end UCore.Fs.Share
