import UCore.Process.LoadSegments

/-!
# Process/HeaderTable — which program headers a load uses

    e_phoff ── record 0 ── record 1 ── …      e_phentsize apart          the file
          0 ── p ──────── p + 1 ──── …        sizeof(struct proghdr) apart    the walk

The size of the table is computed from two fields of the file, the walk steps by a third size, and the
buffer has a fourth: `kmalloc` rounds the order of large blocks down.
-/

namespace UCore.Exec

open Vmm Paging

/-- The bytes that `kmalloc` gives for a size. -/
def room (size : ℕ) : ℕ := if size < 4080 then size else PGSIZE * 2 ^ Kmalloc.findOrder (toS32 size)

/-- `phsize`. -/
def phsizeOf (elf : Elfhdr) : ℕ := elf.phnum * elf.phentsize

/-- The records of the table, by their offsets in the file. -/
def records (elf : Elfhdr) : List ℕ := (List.range elf.phnum).map fun i => elf.phoff + i * elf.phentsize

/-- **The table is interpreted** as it is: the headers used are its records, as far as the walk has come, and
no field is read outside what was allocated and filled. -/
structure Interpreted (elf : Elfhdr) (tr : Trace) : Prop where
  acted : tr.acted.map (elf.phoff + ·) <+: records elf
  all : tr.walked = true → tr.acted.map (elf.phoff + ·) = records elf
  reads : ∀ f ∈ tr.reads, f.1 + f.2 ≤ min (phsizeOf elf) (room (phsizeOf elf))

/-- **A load interprets the table**, or rejects it before any header is used. -/
def Interprets (env : Env) (elf : Elfhdr) (fuel pgdir : ℕ) (kargv : List (List UInt8)) (s : Loading) : Prop :=
  Act.wp (loadHeaders env fuel pgdir elf kargv)
    (fun ret s' => Interpreted elf s'.trace ∧ (s'.trace.acted = [] → records elf = [] ∨ ret ≠ 0))
    (fun e => Interpreted elf e.trace ∧ (e.trace.acted = [] → records elf = [])) s

variable {env : Env} {fuel pgdir phsize o n : ℕ} {elf : Elfhdr} {buffer : ℕ → UInt8}
  {kargv : List (List UInt8)} {s : Loading} {tr tr' : Trace}

/-! ## What the turns leave -/

/-- A call on the address space leaves the trace. -/
theorem wp_onSpace_trace {α : Type} (m : SpaceCall α) :
    Act.wp (onSpace m) (fun _ s' => s'.trace = s.trace) (fun e => e.trace = s.trace) s := by
  rw [wp_onSpace]
  exact Act.wp_mono (Act.wp_true m s.space) (fun _ _ _ => rfl) fun _ _ => rfl

/-- **A header is used**: its fields are read up to `p_memsz`. -/
structure Uses (o : ℕ) (load : Prop) (tr tr' : Trace) : Prop where
  acted : tr'.acted = tr.acted ++ [o]
  walked : tr'.walked = tr.walked
  type : (o, 4) ∈ tr'.reads
  memsz : load → (o + 40, 8) ∈ tr'.reads
  kept : ∀ f ∈ tr.reads, f ∈ tr'.reads
  reads : ∀ f ∈ tr'.reads, f ∈ tr.reads ∨ f.1 + f.2 ≤ o + 48

/-- …and a segment is loaded, or not. -/
theorem wp_loadHeader_trace : Act.wp (loadHeader env fuel pgdir buffer o)
    (fun _ s' => ∃ more, s'.trace = { s.trace with reads := s.trace.reads ++ ((o + 32, 8) :: (o + 40, 8) :: more) } ∧
      ∀ f ∈ more, f.1 + f.2 ≤ o + 48)
    (fun e => ∃ more, e.trace = { s.trace with reads := s.trace.reads ++ ((o + 32, 8) :: (o + 40, 8) :: more) } ∧
      ∀ f ∈ more, f.1 + f.2 ≤ o + 48) s := by
  rw [loadHeader]
  generalize proghdr buffer o = ph
  rw [touch, Act.wp_bind, Act.wp_modify, Act.wp_ite]
  refine ⟨fun _ => ⟨[], rfl, List.forall_mem_nil _⟩, fun _ => ?_⟩
  have hfields : ∀ f ∈ [(o + 4, 4), (o + 16, 8), (o + 8, 8)], f.1 + f.2 ≤ o + 48 := by
    simp
  rw [touch, Act.wp_bind, Act.wp_modify, Act.wp_bind, Act.wp_get, Act.wp_bind]
  refine Act.wp_mono (wp_onSpace_trace _) (fun r s' hs' => ?_) fun e he => ?_
  · rw [Act.wp_bind, Act.wp_modify, Act.wp_pure]
    refine ⟨_, hs'.trans ?_, hfields⟩
    simp
  · refine ⟨_, he.trans ?_, hfields⟩
    simp

-- a header's words are not to be computed where its judgement is used
attribute [local irreducible] loadHeader

/-- The end of the walk. -/
theorem wp_headerTurn_end (ho : phsize ≤ o) {Q : ℕ ⊕ Except ℤ Unit → Loading → Prop} {E : LoadStop → Prop} :
    Act.wp (headerTurn env fuel pgdir phsize buffer o) Q E s ↔
      Q (.inr (.ok ())) { s with trace := { s.trace with walked := true } } := by
  rw [headerTurn, if_neg (not_lt.mpr ho)]
  rfl

/-- A header that is not loaded. -/
theorem wp_headerTurn_skip (ho : o < phsize) (htype : (proghdr buffer o).type ≠ ELF_PT_LOAD)
    {Q : ℕ ⊕ Except ℤ Unit → Loading → Prop} {E : LoadStop → Prop} :
    Act.wp (headerTurn env fuel pgdir phsize buffer o) Q E s ↔
      Q (.inl (o + sizeofProghdr)) { s with trace :=
        { s.trace with acted := s.trace.acted ++ [o], reads := s.trace.reads ++ [(o, 4)] } } := by
  rw [headerTurn, if_pos ho, if_neg htype]
  rfl

/-- **One turn** uses the header that it stands at. -/
theorem wp_headerTurn_uses (ho : o < phsize) :
    Act.wp (headerTurn env fuel pgdir phsize buffer o)
      (fun r s' => Uses o ((proghdr buffer o).type = ELF_PT_LOAD) s.trace s'.trace ∧
        (r = .inl (o + sizeofProghdr) ∨ ∃ ret, r = .inr (.error ret)))
      (fun e => Uses o ((proghdr buffer o).type = ELF_PT_LOAD) s.trace e.trace) s := by
  by_cases htype : (proghdr buffer o).type = ELF_PT_LOAD
  · have huses : ∀ {tr : Trace}, (∃ more, tr = { s.trace with acted := s.trace.acted ++ [o], reads := (s.trace.reads ++
        [(o, 4)]) ++ ((o + 32, 8) :: (o + 40, 8) :: more) } ∧ ∀ f ∈ more, f.1 + f.2 ≤ o + 48) →
        Uses o ((proghdr buffer o).type = ELF_PT_LOAD) s.trace tr := by
      rintro _ ⟨more, rfl, hmore⟩
      refine ⟨rfl, rfl, by simp, fun _ => by simp, fun f hf => ?_, fun f hf => ?_⟩
      · exact List.mem_append_left _ (List.mem_append_left _ hf)
      · simp only [List.append_assoc, List.mem_append, List.mem_cons, List.not_mem_nil, or_false] at hf
        rcases hf with hf | rfl | rfl | rfl | hf
        · exact .inl hf
        all_goals refine .inr ?_
        · exact Nat.add_le_add_left (show 4 ≤ 48 by decide) o
        · dsimp only
          omega
        · dsimp only
          omega
        · exact hmore f hf
    rw [headerTurn, if_pos ho, if_pos htype, act, touch, Act.wp_bind, Act.wp_modify, Act.wp_bind, Act.wp_modify,
      Act.wp_bind]
    refine Act.wp_mono wp_loadHeader_trace (fun r s' hs' => ?_) fun e he => huses he
    cases r with
    | error ret => exact ⟨huses hs', .inr ⟨ret, rfl⟩⟩
    | ok u => exact ⟨huses hs', .inl rfl⟩
  · rw [wp_headerTurn_skip ho htype]
    refine ⟨⟨rfl, rfl, by simp, fun h => absurd h htype, fun f hf => List.mem_append_left _ hf, fun f hf => ?_⟩,
      .inl rfl⟩
    rcases List.mem_append.mp hf with hf | hf
    · exact .inl hf
    · rw [List.mem_singleton.mp hf]
      exact .inr (Nat.add_le_add_left (show 4 ≤ 48 by decide) o)

/-! ## The walk, and what follows it -/

/-- **The walk**: what its turns keep holds to its end. -/
theorem wp_walkHeaders_of (Inv : ℕ → Loading → Prop) {Q : Except ℤ Unit → Loading → Prop} {E : LoadStop → Prop}
    (hturn : ∀ o s, Inv o s → Act.wp (headerTurn env fuel pgdir phsize buffer o)
      (fun r s' => r.elim (fun o' => o < phsize ∧ o < o' ∧ Inv o' s') fun a => Q a s') E s) (hs : Inv 0 s) :
    Act.wp (walkHeaders env fuel pgdir phsize buffer) Q E s := by
  refine Act.wp_loop (fun m o s => m = phsize - o ∧ Inv o s) ?_ (phsize + 1) phsize 0 s ⟨rfl, hs⟩
    fun hle => absurd hle (Nat.not_succ_le_self _)
  rintro m o s ⟨rfl, hinv⟩
  refine Act.wp_mono (hturn o s hinv) (fun r s' hr => ?_) fun _ => id
  match r, hr with
  | .inl o', ⟨ho, hlt, hinv'⟩ => exact ⟨phsize - o', by omega, rfl, hinv'⟩
  | .inr a, hr => exact hr

/-- The stack and the arguments have nothing to do with the headers. -/
theorem wp_enterUser_trace {entry : ℕ} :
    Act.wp (enterUser fuel pgdir entry kargv) (fun _ s' => s'.trace = s.trace) (fun e => e.trace = s.trace) s := by
  rw [enterUser, Act.wp_bind, Act.wp_modify, Act.wp_bind]
  refine Act.wp_mono (wp_onSpace_trace _) (fun r s' hs' => ?_) fun e he => he
  cases r with
  | none => exact hs'
  | some ends => exact hs'

/-- So a load leaves what the walk has left. -/
theorem wp_loadProgram_trace {T : Trace → Prop}
    (hwalk : Act.wp (walkHeaders env fuel pgdir phsize buffer) (fun _ s' => T s'.trace) (fun e => T e.trace) s) :
    Act.wp (loadProgram env fuel pgdir elf kargv phsize buffer) (fun _ s' => T s'.trace) (fun e => T e.trace)
      s := by
  rw [loadProgram, Act.wp_bind]
  refine Act.wp_mono hwalk (fun r s hs => ?_) fun _ => id
  cases r with
  | error ret => exact hs
  | ok u =>
    rw [Act.wp_bind]
    refine Act.wp_mono (wp_onSpace_trace _) (fun ret s' hs' => ?_) fun e he => he ▸ hs
    have ht : T s'.trace := hs' ▸ hs
    rw [Act.wp_ite]
    refine ⟨fun _ => ht, fun _ => ?_⟩
    exact Act.wp_mono wp_enterUser_trace (fun _ _ h => h ▸ ht) fun _ h => h ▸ ht

/-- A load that comes to the walk. -/
theorem wp_loadHeaders_trace (T : Trace → Prop) (kargv : List (List UInt8)) (hpanic : ¬ KmallocPanics (phsizeOf elf))
    (hgranted : env.phGranted = true) (hread : loadIcodeRead env.rd (phsizeOf elf) elf.phoff = 0)
    (hwalk : Act.wp (walkHeaders env fuel pgdir (phsizeOf elf) (bufferOf env elf (phsizeOf elf)))
      (fun _ s' => T s'.trace) (fun e => T e.trace) s) :
    Act.wp (loadHeaders env fuel pgdir elf kargv) (fun _ s' => T s'.trace) (fun e => T e.trace) s := by
  rw [loadHeaders, Act.wp_bind, wp_onSpace, Act.wp_require]
  refine ⟨fun _ => ?_, fun hno => absurd hpanic hno⟩
  rw [if_pos hgranted]
  change Act.wp (if loadIcodeRead env.rd (phsizeOf elf) elf.phoff ≠ 0 then _ else _) _ _ s
  rw [if_neg (not_not.mpr hread)]
  exact wp_loadProgram_trace hwalk

/-! ## A table that fits -/

/-- The first `n` headers of the walk. -/
def walkOffsets (n : ℕ) : List ℕ := (List.range n).map fun i => sizeofProghdr * i

theorem walkOffsets_succ (n : ℕ) : walkOffsets (n + 1) = walkOffsets n ++ [sizeofProghdr * n] := by
  rw [walkOffsets, List.range_succ, List.map_append]
  rfl

/-- The table of `phnum` records that the walk steps over. -/
structure Steps (elf : Elfhdr) : Prop where
  step : ∀ i < elf.phnum, i * elf.phentsize = sizeofProghdr * i
  le : phsizeOf elf ≤ sizeofProghdr * elf.phnum
  read : sizeofProghdr * elf.phnum ≤ phsizeOf elf + 8
  fits : sizeofProghdr * elf.phnum ≤ room (phsizeOf elf) + 8

theorem Steps.records_eq (h : Steps elf) : records elf = (walkOffsets elf.phnum).map (elf.phoff + ·) := by
  rw [records, walkOffsets, List.map_map]
  refine List.map_congr_left fun i hi => ?_
  rw [h.step i (List.mem_range.mp hi)]
  rfl

/-- The trace after `n` headers. -/
structure Walked (elf : Elfhdr) (n : ℕ) (tr : Trace) : Prop where
  le : n ≤ elf.phnum
  acted : tr.acted = walkOffsets n
  reads : ∀ f ∈ tr.reads, f.1 + f.2 + 8 ≤ sizeofProghdr * elf.phnum

theorem Walked.interpreted (h : Walked elf n tr) (hsteps : Steps elf) (hend : tr.walked = true → n = elf.phnum) :
    Interpreted elf tr := by
  have hrecords := hsteps.records_eq
  refine ⟨?_, fun hw => ?_, fun f hf => ?_⟩
  · rw [hrecords, h.acted]
    refine List.IsPrefix.map _ ?_
    rw [walkOffsets, walkOffsets, ← Nat.add_sub_cancel' h.le, List.range_add]
    exact (List.prefix_append _ _).map _
  · rw [hrecords, h.acted, hend hw]
  · have := h.reads f hf
    have := hsteps.read
    have := hsteps.fits
    omega

theorem Walked.uses {load : Prop} (h : Walked elf n tr) (hn : n < elf.phnum)
    (huses : Uses (sizeofProghdr * n) load tr tr') : Walked elf (n + 1) tr' := by
  refine ⟨hn, ?_, fun f hf => ?_⟩
  · rw [huses.acted, h.acted, walkOffsets_succ]
  · rcases huses.reads f hf with hf | hf
    · exact h.reads f hf
    · have hle : sizeofProghdr * (n + 1) ≤ sizeofProghdr * elf.phnum := Nat.mul_le_mul_left _ hn
      change f.1 + f.2 ≤ 56 * n + 48 at hf
      change 56 * (n + 1) ≤ _ at hle
      omega

/-- **The walk over a table that fits** interprets it. -/
theorem Steps.wp_walkHeaders (h : Steps elf) (hs : s.trace = ⟨[], [], false⟩) :
    Act.wp (walkHeaders env fuel pgdir (phsizeOf elf) buffer)
      (fun _ s' => Interpreted elf s'.trace ∧ (s'.trace.acted = [] → records elf = []))
      (fun e => Interpreted elf e.trace ∧ (e.trace.acted = [] → records elf = [])) s := by
  refine wp_walkHeaders_of (fun o s => ∃ n, o = sizeofProghdr * n ∧ s.trace.walked = false ∧
    Walked elf n s.trace) ?_ ?_
  rotate_left
  · rw [hs]
    exact ⟨0, rfl, rfl, Nat.zero_le _, rfl, fun _ hf => absurd hf List.not_mem_nil⟩
  rintro _ s ⟨n, rfl, hwalked, hw⟩
  have hle := h.le
  have hread := h.read
  rcases Nat.lt_or_ge (sizeofProghdr * n) (phsizeOf elf) with hlt | hge
  · have hn : n < elf.phnum := by
      change 56 * n < _ at hlt
      change _ ≤ 56 * _ at hle
      omega
    have hnot : ∀ {tr load}, Uses (sizeofProghdr * n) load s.trace tr →
        Interpreted elf tr ∧ (tr.acted = [] → records elf = []) := fun huses => by
      refine ⟨(hw.uses hn huses).interpreted h fun htrue => ?_, fun hnil => ?_⟩
      · rw [huses.walked, hwalked] at htrue
        exact absurd htrue (by decide)
      · rw [huses.acted] at hnil
        exact absurd hnil (by simp)
    refine Act.wp_mono (wp_headerTurn_uses hlt) (fun r s' hs' => ?_) fun e he => hnot he
    obtain ⟨huses, rfl | ⟨ret, rfl⟩⟩ := hs'
    · exact ⟨hlt, Nat.lt_add_of_pos_right (by decide), n + 1, rfl, huses.walked.trans hwalked, hw.uses hn huses⟩
    · exact hnot huses
  · rw [wp_headerTurn_end hge]
    have hn : n = elf.phnum := by
      have := hw.le
      change _ ≤ 56 * n at hge
      change 56 * _ ≤ _ at hread
      omega
    refine ⟨Walked.interpreted ⟨hw.le, hw.acted, hw.reads⟩ h fun _ => hn, fun hnil => ?_⟩
    rw [h.records_eq, ← hn, ← hw.acted]
    exact congrArg _ hnil

/-! ## Tables of zeros, and of one segment -/

theorem type_ne_load (h : buffer o ≠ 1) : (proghdr buffer o).type ≠ ELF_PT_LOAD := fun htype => h (by
  have hword : (buffer o).toNat + 256 * Bytes.word buffer 3 (o + 1) = 1 := htype
  exact UInt8.toNat_inj.mp (show (buffer o).toNat = 1 by omega))

theorem type_eq_load (h : buffer o = 1) (hzero : ∀ i, 0 < i → i < 4 → buffer (o + i) = 0) :
    (proghdr buffer o).type = ELF_PT_LOAD := by
  change (buffer o).toNat + 256 * ((buffer (o + 1)).toNat + 256 * ((buffer (o + 2)).toNat + 256 *
    ((buffer (o + 3)).toNat + 256 * 0))) = 1
  rw [h, hzero 1 (by omega) (by omega), hzero 2 (by omega) (by omega), hzero 3 (by omega) (by omega)]
  rfl

/-- Over zeros the walk goes to the end of the table, in steps of its own. -/
theorem wp_walkHeaders_zero (hzero : ∀ i < phsize, buffer i = 0) (hs : s.trace = ⟨[], [], false⟩)
    {E : LoadStop → Prop} :
    Act.wp (walkHeaders env fuel pgdir phsize buffer) (fun _ s' => s'.trace.walked = true ∧
      ∃ n, s'.trace.acted = walkOffsets n ∧ phsize ≤ sizeofProghdr * n ∧ sizeofProghdr * n < phsize + sizeofProghdr)
      E s := by
  refine wp_walkHeaders_of (fun o s => ∃ n, o = sizeofProghdr * n ∧ s.trace.acted = walkOffsets n ∧
    sizeofProghdr * n < phsize + sizeofProghdr) ?_ ⟨0, rfl, by rw [hs]; rfl, Nat.lt_add_left _ (by decide)⟩
  rintro _ s ⟨n, rfl, hacted, hn⟩
  rcases Nat.lt_or_ge (sizeofProghdr * n) phsize with hlt | hge
  · have hbyte : buffer (sizeofProghdr * n) ≠ 1 := by
      rw [hzero _ hlt]
      decide
    rw [wp_headerTurn_skip hlt (type_ne_load hbyte)]
    refine ⟨hlt, Nat.lt_add_of_pos_right (by decide), n + 1, rfl, ?_, Nat.add_lt_add_right hlt _⟩
    dsimp only
    rw [hacted, walkOffsets_succ]
  · rw [wp_headerTurn_end hge]
    exact ⟨rfl, n, hacted, hge, hn⟩

/-- A segment that the walk comes to is looked at. -/
theorem wp_walkHeaders_mark (hlt : sizeofProghdr * n < phsize) (hmark : buffer (sizeofProghdr * n) = 1)
    (hzero : ∀ i < phsize, i ≠ sizeofProghdr * n → buffer i = 0) :
    Act.wp (walkHeaders env fuel pgdir phsize buffer)
      (fun _ s' => (sizeofProghdr * n, 4) ∈ s'.trace.reads ∧
        (sizeofProghdr * n + 4 ≤ phsize → (sizeofProghdr * n + 40, 8) ∈ s'.trace.reads))
      (fun e => (sizeofProghdr * n, 4) ∈ e.trace.reads ∧
        (sizeofProghdr * n + 4 ≤ phsize → (sizeofProghdr * n + 40, 8) ∈ e.trace.reads)) s := by
  refine wp_walkHeaders_of (fun o s => (∃ i ≤ n, o = sizeofProghdr * i) ∨ (sizeofProghdr * n, 4) ∈ s.trace.reads ∧
    (sizeofProghdr * n + 4 ≤ phsize → (sizeofProghdr * n + 40, 8) ∈ s.trace.reads)) ?_ (.inl ⟨0, Nat.zero_le _, rfl⟩)
  rintro o s (⟨i, hi, rfl⟩ | ⟨htype, hmemsz⟩)
  · rcases Nat.lt_or_eq_of_le hi with hi | rfl
    · have hbefore : sizeofProghdr * i < sizeofProghdr * n := Nat.mul_lt_mul_of_pos_left hi (by decide)
      have hbyte : buffer (sizeofProghdr * i) ≠ 1 := by
        rw [hzero _ (hbefore.trans hlt) hbefore.ne]
        decide
      rw [wp_headerTurn_skip (hbefore.trans hlt) (type_ne_load hbyte)]
      exact ⟨hbefore.trans hlt, Nat.lt_add_of_pos_right (by decide), .inl ⟨i + 1, hi, rfl⟩⟩
    · have hload : sizeofProghdr * i + 4 ≤ phsize → (proghdr buffer (sizeofProghdr * i)).type = ELF_PT_LOAD :=
        fun hle => type_eq_load hmark fun j hj hj4 => hzero _ (by omega) (by omega)
      refine Act.wp_mono (wp_headerTurn_uses hlt) (fun r s' hs' => ?_) fun e he =>
        ⟨he.type, fun hle => he.memsz (hload hle)⟩
      obtain ⟨huses, rfl | ⟨ret, rfl⟩⟩ := hs'
      · exact ⟨hlt, Nat.lt_add_of_pos_right (by decide), .inr ⟨huses.type, fun hle => huses.memsz (hload hle)⟩⟩
      · exact ⟨huses.type, fun hle => huses.memsz (hload hle)⟩
  · rcases Nat.lt_or_ge o phsize with ho | ho
    · refine Act.wp_mono (wp_headerTurn_uses ho) (fun r s' hs' => ?_) fun e he =>
        ⟨he.kept _ htype, fun hle => he.kept _ (hmemsz hle)⟩
      obtain ⟨huses, rfl | ⟨ret, rfl⟩⟩ := hs'
      · exact ⟨ho, Nat.lt_add_of_pos_right (by decide), .inr ⟨huses.kept _ htype, fun hle =>
          huses.kept _ (hmemsz hle)⟩⟩
      · exact ⟨huses.kept _ htype, fun hle => huses.kept _ (hmemsz hle)⟩
    · rw [wp_headerTurn_end ho]
      exact ⟨htype, hmemsz⟩

/-- What a load that interprets the table has left, if it has come to the walk. -/
theorem Interprets.exists_trace (T : Trace → Prop) (h : Interprets env elf fuel pgdir kargv s)
    (hpanic : ¬ KmallocPanics (phsizeOf elf)) (hgranted : env.phGranted = true)
    (hread : loadIcodeRead env.rd (phsizeOf elf) elf.phoff = 0)
    (hwalk : Act.wp (walkHeaders env fuel pgdir (phsizeOf elf) (bufferOf env elf (phsizeOf elf)))
      (fun _ s' => T s'.trace) (fun e => T e.trace) s) : ∃ tr, Interpreted elf tr ∧ T tr := by
  have hwp := wp_loadHeaders_trace T kargv hpanic hgranted hread hwalk
  cases hrun : loadHeaders env fuel pgdir elf kargv s with
  | ok r =>
    have hall := Act.wp_of_ok h hrun
    have ht := Act.wp_of_ok hwp hrun
    exact ⟨_, hall.1, ht⟩
  | error e =>
    have hall := Act.wp_of_error h hrun
    have ht := Act.wp_of_error hwp hrun
    exact ⟨_, hall.1, ht⟩

/-- Before the walk nothing has been done. -/
theorem interpreted_nil (elf : Elfhdr) : Interpreted elf ⟨[], [], false⟩ :=
  ⟨List.nil_prefix, fun h => absurd h (by decide), fun _ hf => absurd hf List.not_mem_nil⟩

/-- The same file, with other bytes in it. -/
def Env.withData (env : Env) (data : ℕ → ℕ → ℕ → UInt8) : Env :=
  { env with rd := { env.rd with data := data } }

/-- A load that does not come to the walk. -/
theorem interprets_stopped (hs : s.trace = ⟨[], [], false⟩) (h : KmallocPanics (phsizeOf elf) ∨ env.phGranted ≠ true) :
    Interprets env elf fuel pgdir kargv s ↔ records elf = [] := by
  have hnil := interpreted_nil elf
  rw [Interprets, loadHeaders, Act.wp_bind, wp_onSpace, Act.wp_require]
  by_cases hpanic : KmallocPanics (phsizeOf elf)
  · exact ⟨fun hwp => (hwp.2 (not_not.mpr hpanic)).2 (by rw [hs]), fun hr =>
      ⟨fun hno => absurd hpanic hno, fun _ => ⟨hs ▸ hnil, fun _ => hr⟩⟩⟩
  · rw [if_neg (h.resolve_left hpanic)]
    refine ⟨fun hwp => ?_, fun hr => ⟨fun _ => ⟨hs ▸ hnil, fun _ => .inl hr⟩, fun hno => absurd hpanic hno⟩⟩
    have hstarved : s.trace.acted = [] → records elf = [] ∨ (0 : ℤ) ≠ 0 := (hwp.1 hpanic).2
    exact (hstarved (by rw [hs])).resolve_right (not_not.mpr rfl)

/-- A table that cannot be read. -/
theorem interprets_unread (hs : s.trace = ⟨[], [], false⟩) (hpanic : ¬ KmallocPanics (phsizeOf elf))
    (hgranted : env.phGranted = true) (hread : loadIcodeRead env.rd (phsizeOf elf) elf.phoff ≠ 0) :
    Interprets env elf fuel pgdir kargv s := by
  have hnil := interpreted_nil elf
  rw [Interprets, loadHeaders, Act.wp_bind, wp_onSpace, Act.wp_require]
  refine ⟨fun _ => ?_, fun hno => absurd hpanic hno⟩
  rw [if_pos hgranted]
  change Act.wp (if loadIcodeRead env.rd (phsizeOf elf) elf.phoff ≠ 0 then _ else _) _ _ _
  rw [if_pos hread, Act.wp_pure]
  exact ⟨hs ▸ hnil, fun _ => .inr hread⟩

/-- A table that can be read, and fits. -/
theorem Steps.interprets (h : Steps elf) (hs : s.trace = ⟨[], [], false⟩) (hpanic : ¬ KmallocPanics (phsizeOf elf))
    (hgranted : env.phGranted = true) (hread : loadIcodeRead env.rd (phsizeOf elf) elf.phoff = 0) :
    Interprets env elf fuel pgdir kargv s := by
  refine Act.wp_mono (wp_loadHeaders_trace (fun tr => Interpreted elf tr ∧ (tr.acted = [] → records elf = []))
    kargv hpanic hgranted hread (h.wp_walkHeaders hs)) (fun _ s' hs' => ⟨hs'.1, fun hnil => .inl (hs'.2 hnil)⟩) fun _ => id

theorem records_eq_nil_iff (elf : Elfhdr) : records elf = [] ↔ elf.phnum = 0 := by
  rw [records, List.map_eq_nil_iff, List.range_eq_nil]

/-- **A table that fits**: records of the size that the walk steps by, or one record that is as good. -/
structure TableFits (env : Env) (elf : Elfhdr) : Prop where
  granted : env.phGranted = true
  noPanic : ¬ KmallocPanics (phsizeOf elf)
  table : loadIcodeRead env.rd (phsizeOf elf) elf.phoff ≠ 0 ∨
    elf.phentsize = sizeofProghdr ∧ sizeofProghdr * elf.phnum ≤ room (phsizeOf elf) + 8 ∨
    elf.phnum = 1 ∧ 48 ≤ elf.phentsize ∧ elf.phentsize ≤ sizeofProghdr

/-- Without records there is nothing to do. -/
theorem interprets_empty (hs : s.trace = ⟨[], [], false⟩) (hnum : elf.phnum = 0) :
    Interprets env elf fuel pgdir kargv s := by
  by_cases hstop : KmallocPanics (phsizeOf elf) ∨ env.phGranted ≠ true
  · exact (interprets_stopped hs hstop).mpr ((records_eq_nil_iff elf).mpr hnum)
  · rw [not_or, not_not] at hstop
    by_cases hread : loadIcodeRead env.rd (phsizeOf elf) elf.phoff = 0
    · have hzero : sizeofProghdr * elf.phnum = 0 := by rw [hnum, Nat.mul_zero]
      refine Steps.interprets ⟨fun i hi => ?_, ?_, hzero ▸ Nat.zero_le _, hzero ▸ Nat.zero_le _⟩ hs hstop.1 hstop.2
        hread
      · rw [hnum] at hi
        exact absurd hi (Nat.not_lt_zero i)
      · rw [phsizeOf, hnum, Nat.zero_mul]
        exact Nat.zero_le _
    · exact interprets_unread hs hstop.1 hstop.2 hread

/-- …and a table that fits is interpreted. -/
theorem TableFits.interprets (h : TableFits env elf) (hs : s.trace = ⟨[], [], false⟩) :
    Interprets env elf fuel pgdir kargv s := by
  by_cases hread : loadIcodeRead env.rd (phsizeOf elf) elf.phoff = 0
  · refine Steps.interprets ?_ hs h.noPanic h.granted hread
    rcases h.table.resolve_left (not_not.mpr hread) with ⟨hsize, hroom⟩ | ⟨hnum, hlo, hhi⟩
    · have hphsize : phsizeOf elf = sizeofProghdr * elf.phnum := by
        rw [phsizeOf, hsize, Nat.mul_comm]
      refine ⟨fun i _ => ?_, hphsize.le, hphsize ▸ Nat.le_add_right _ _, hroom⟩
      rw [hsize, Nat.mul_comm]
    · have hphsize : phsizeOf elf = elf.phentsize := by
        rw [phsizeOf, hnum, Nat.one_mul]
      have hroom : room (phsizeOf elf) = elf.phentsize := by
        rw [hphsize, room, if_pos (lt_of_le_of_lt hhi (by decide))]
      have hread8 : sizeofProghdr * elf.phnum ≤ elf.phentsize + 8 := by
        rw [hnum]
        exact Nat.add_le_add_right hlo 8
      refine ⟨fun i hi => ?_, ?_, hphsize ▸ hread8, hroom ▸ hread8⟩
      · obtain rfl : i = 0 := by omega
        exact Nat.zero_mul _
      · rw [hphsize, hnum]
        exact hhi
  · exact interprets_unread hs h.noPanic h.granted hread

/-- **A table of zeros** is walked to its end, so its records have the size that the walk steps by. -/
theorem Interprets.steps (h : Interprets env elf fuel pgdir kargv s) (hs : s.trace = ⟨[], [], false⟩)
    (hpanic : ¬ KmallocPanics (phsizeOf elf)) (hgranted : env.phGranted = true)
    (hread : loadIcodeRead env.rd (phsizeOf elf) elf.phoff = 0)
    (hzero : ∀ i < phsizeOf elf, bufferOf env elf (phsizeOf elf) i = 0) :
    phsizeOf elf ≤ sizeofProghdr * elf.phnum ∧ sizeofProghdr * elf.phnum < phsizeOf elf + sizeofProghdr ∧
      ∀ i < elf.phnum, sizeofProghdr * i = i * elf.phentsize := by
  obtain ⟨tr, hint, hwalked, n, hacted, hge, hlt⟩ := Interprets.exists_trace
    (fun tr => tr.walked = true ∧ ∃ n, tr.acted = walkOffsets n ∧ phsizeOf elf ≤ sizeofProghdr * n ∧
      sizeofProghdr * n < phsizeOf elf + sizeofProghdr)
    h hpanic hgranted hread (wp_walkHeaders_zero hzero hs)
  have heq := hint.all hwalked
  rw [hacted] at heq
  have hn : n = elf.phnum := by
    have hlen := congrArg List.length heq
    simpa [walkOffsets, records] using hlen
  rw [walkOffsets, records, hn, List.map_map, List.map_inj_left] at heq
  exact ⟨hn ▸ hge, hn ▸ hlt, fun i hi => Nat.add_left_cancel (heq i (List.mem_range.mpr hi))⟩

/-- **A segment in the last record** is looked at, so it is in the buffer. -/
theorem Interprets.last (h : Interprets env elf fuel pgdir kargv s)
    (hpanic : ¬ KmallocPanics (phsizeOf elf)) (hgranted : env.phGranted = true)
    (hread : loadIcodeRead env.rd (phsizeOf elf) elf.phoff = 0) (hlt : sizeofProghdr * n < phsizeOf elf)
    (hmark : bufferOf env elf (phsizeOf elf) (sizeofProghdr * n) = 1)
    (hzero : ∀ i < phsizeOf elf, i ≠ sizeofProghdr * n → bufferOf env elf (phsizeOf elf) i = 0) :
    sizeofProghdr * n + 48 ≤ min (phsizeOf elf) (room (phsizeOf elf)) := by
  obtain ⟨tr, hint, htype, hmemsz⟩ := Interprets.exists_trace
    (fun tr => (sizeofProghdr * n, 4) ∈ tr.reads ∧
      (sizeofProghdr * n + 4 ≤ phsizeOf elf → (sizeofProghdr * n + 40, 8) ∈ tr.reads))
    h hpanic hgranted hread (wp_walkHeaders_mark hlt hmark hzero)
  have hread4 : sizeofProghdr * n + 4 ≤ _ := hint.reads _ htype
  exact hint.reads _ (hmemsz (hread4.trans (min_le_left _ _)))

/-- **What every file shows**: if the table can be read, and is always interpreted, it fits. -/
theorem table_of_interprets (hpanic : ¬ KmallocPanics (phsizeOf elf)) (hgranted : env.phGranted = true)
    (hread : loadIcodeRead env.rd (phsizeOf elf) elf.phoff = 0) (hnum : elf.phnum ≠ 0)
    (h : ∀ data fuel pgdir kargv s, s.trace = ⟨[], [], false⟩ →
      Interprets (env.withData data) elf fuel pgdir kargv s) :
    elf.phentsize = sizeofProghdr ∧ sizeofProghdr * elf.phnum ≤ room (phsizeOf elf) + 8 ∨
      elf.phnum = 1 ∧ 48 ≤ elf.phentsize ∧ elf.phentsize ≤ sizeofProghdr := by
  have hzeros := h (fun _ _ _ => 0) 0 0 [] beforeLoad rfl
  obtain ⟨hge, hlt, hstep⟩ := hzeros.steps rfl hpanic hgranted hread fun i hi => if_pos hi
  have hlast : sizeofProghdr * (elf.phnum - 1) < phsizeOf elf := by
    change 56 * _ < _ + 56 at hlt
    change 56 * _ < _
    omega
  have hmark := h (fun _ _ i => if i = sizeofProghdr * (elf.phnum - 1) then 1 else 0) 0 0 [] beforeLoad rfl
  have hmemsz := hmark.last hpanic hgranted hread hlast ((if_pos hlast).trans (if_pos rfl)) fun i hi hne =>
    (if_pos hi).trans (if_neg hne)
  by_cases hone : elf.phnum = 1
  · have hsize : phsizeOf elf = elf.phentsize := by
      rw [phsizeOf, hone, Nat.one_mul]
    rw [hone] at hmemsz hge
    rw [hsize] at hmemsz hge
    exact .inr ⟨hone, (le_min_iff.mp hmemsz).1, hge⟩
  · have hone := hstep 1 (by omega)
    rw [Nat.mul_one, Nat.one_mul] at hone
    refine .inl ⟨hone.symm, ?_⟩
    have hroom := (le_min_iff.mp hmemsz).2
    change 56 * _ + 48 ≤ _ at hroom
    change 56 * _ ≤ _
    omega

/-- **Which tables are interpreted**, whatever is in the file: those without records, and those that fit. -/
theorem interprets_iff (env : Env) (elf : Elfhdr) :
    (∀ data fuel pgdir kargv s, s.trace = ⟨[], [], false⟩ →
      Interprets (env.withData data) elf fuel pgdir kargv s) ↔ elf.phnum = 0 ∨ TableFits env elf := by
  refine ⟨fun h => or_iff_not_imp_left.mpr fun hnum => ?_, fun h data fuel pgdir kargv s hs => ?_⟩
  · have hgo : ¬ (KmallocPanics (phsizeOf elf) ∨ env.phGranted ≠ true) := fun hstop => by
      have hstop' : KmallocPanics (phsizeOf elf) ∨ (env.withData fun _ _ _ => 0).phGranted ≠ true := hstop
      have hzeros := h (fun _ _ _ => 0) 0 0 [] beforeLoad rfl
      exact hnum ((records_eq_nil_iff elf).mp ((interprets_stopped rfl hstop').mp hzeros))
    rw [not_or, not_not] at hgo
    refine ⟨hgo.2, hgo.1, or_iff_not_imp_left.mpr fun hread => ?_⟩
    exact table_of_interprets hgo.1 hgo.2 (not_not.mp hread) hnum h
  · rcases h with hnum | hfits
    · exact interprets_empty hs hnum
    · exact TableFits.interprets ⟨hfits.granted, hfits.noPanic, hfits.table⟩ hs

/-- **Two records of 64 bytes** are taken for three of 56. -/
theorem not_interprets_wide : ¬ Interprets (envOf fun _ => 0) ⟨ELF_MAGIC, 0, 64, 64, 2⟩ 0 0 [] beforeLoad := by
  intro h
  have hwide := h.steps rfl (by decide) rfl (by decide) fun i hi => if_pos hi
  exact absurd hwide.1 (by decide)

end UCore.Exec
