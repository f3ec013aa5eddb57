import UCore.Mm.KmallocRun

/-!
# Mm/KmallocEnds — does every call of `kmalloc` and `kfree` end?

    slobfree ─▸ arena ─▸ …     `kmalloc(0)` asks for one unit: the arena itself, if it comes next

Requests of every size, zero included.  A block of size zero has no byte but its header, so that its
address may be that of the page after it, which another block may begin with: the blocks in use are a
multiset of addresses.  As long as the arena stays on the list, every call ends.
-/

namespace UCore.Kmalloc

variable {I : Image} {s t : SlobHeap} {xs ys : List ℕ} {out : Finset ℕ} {c p n size fuel : ℕ}

/-! ## Pieces of the bytes handed out -/

/-- Two pieces, each a start and a number of units, do not meet. -/
abbrev PiecesApart (x y : ℕ × ℕ) : Prop := Disjoint (span x.1 x.2) (span y.1 y.2)

/-- **Pieces of the bytes handed out**: not empty, and apart. -/
structure Pieces (P : List (ℕ × ℕ)) (out : Finset ℕ) : Prop where
  apart : P.Pairwise PiecesApart
  within : ∀ x ∈ P, 0 < x.2 ∧ span x.1 x.2 ⊆ out

namespace Pieces

variable {P P' : List (ℕ × ℕ)}

theorem nil : Pieces [] out := ⟨.nil, fun _ h => (nomatch h)⟩

theorem perm (h : Pieces P out) (hp : P.Perm P') : Pieces P' out :=
  ⟨(hp.pairwise_iff fun {_ _} hxy => hxy.symm).mp h.apart, fun x hx => h.within x (hp.mem_iff.mpr hx)⟩

/-- A piece of fresh bytes. -/
theorem cons (h : Pieces P out) (hn : 0 < n) (hdisj : Disjoint out (span c n)) :
    Pieces ((c, n) :: P) (out ∪ span c n) := by
  refine ⟨List.pairwise_cons.mpr ⟨fun x hx => hdisj.symm.mono_right (h.within x hx).2, h.apart⟩,
    fun x hx => ?_⟩
  rcases List.mem_cons.mp hx with rfl | hx
  · exact ⟨hn, Finset.subset_union_right⟩
  · exact ⟨(h.within x hx).1, (h.within x hx).2.trans Finset.subset_union_left⟩

/-- A piece given back. -/
theorem tail (h : Pieces ((c, n) :: P) out) : Pieces P (out \ span c n) := by
  obtain ⟨hc, hP⟩ := List.pairwise_cons.mp h.apart
  refine ⟨hP, fun x hx => ?_⟩
  have hx' := h.within x (List.mem_cons_of_mem _ hx)
  exact ⟨hx'.1, Finset.subset_sdiff.mpr ⟨hx'.2, (hc x hx).symm⟩⟩

/-- The start of a piece is handed out. -/
theorem mem (h : Pieces P out) (hx : (c, n) ∈ P) : c ∈ out := by
  obtain ⟨hpos, hsub⟩ := h.within _ hx
  exact hsub (mem_span.mpr ⟨le_rfl, by dsimp only at hpos; omega⟩)

end Pieces

/-- The two pieces of a big block. -/
def bigPieces (bb : BigBlock) : List (ℕ × ℕ) := [(bb.addr, 2), (bb.pages, 256 * 2 ^ bb.order)]

/-- The pieces of the blocks in use, given the headers of the small ones. -/
def piecesOf (s : SlobHeap) (heads : List ℕ) : List (ℕ × ℕ) :=
  heads.map (fun c => (c, s.units c)) ++ s.bigblocks.flatMap bigPieces

/-- The addresses of the blocks in use. -/
def addresses (s : SlobHeap) (heads : List ℕ) : Multiset ℕ :=
  ↑(heads.map (· + SLOB_UNIT)) + ↑(s.bigblocks.map (·.pages))

/-- **The allocator between two calls**: `heads` are the headers of the small blocks in use. -/
structure Steady (I : Image) (s : SlobHeap) (live : Multiset ℕ) (heads xs : List ℕ)
    (out : Finset ℕ) : Prop where
  slob : Slob I s xs out
  pieces : Pieces (piecesOf s heads) out
  big : ∀ bb ∈ s.bigblocks, 0 < bb.pages ∧ PGSIZE ∣ bb.pages
  live : live = addresses s heads

namespace Steady

variable {live : Multiset ℕ} {heads : List ℕ}

theorem head_mem (h : Steady I s live heads xs out) (hc : c ∈ heads) : c ∈ out :=
  h.pieces.mem (List.mem_append_left _ (List.mem_map_of_mem hc))

/-- The pieces depend on the headers in use and on `bigblocks` only. -/
theorem piecesOf_congr (hunits : ∀ c ∈ heads, t.units c = s.units c)
    (hbig : t.bigblocks = s.bigblocks) : piecesOf t heads = piecesOf s heads := by
  rw [piecesOf, piecesOf, hbig]
  exact congrArg (· ++ _) (List.map_congr_left fun c hc => by rw [hunits c hc])

/-- The free list changes, and every block stays. -/
theorem same (h : Steady I s live heads xs out) (hslob : Slob I t ys out)
    (hunits : ∀ a ∈ out, t.units a = s.units a) (hbig : t.bigblocks = s.bigblocks) :
    Steady I t live heads ys out := by
  refine ⟨hslob, ?_, hbig ▸ h.big, ?_⟩
  · rw [piecesOf_congr (fun c hc => hunits c (h.head_mem hc)) hbig]
    exact h.pieces
  · rw [h.live, addresses, addresses, hbig]

/-- **A small block more.** -/
theorem addSmall (h : Steady I s live heads xs out) (hslob : Slob I t ys (out ∪ span c n))
    (hn : 0 < n) (hdisj : Disjoint out (span c n)) (hsize : t.units c = n)
    (hunits : ∀ a ∈ out, t.units a = s.units a) (hbig : t.bigblocks = s.bigblocks) :
    Steady I t ((c + SLOB_UNIT) ::ₘ live) (c :: heads) ys (out ∪ span c n) := by
  refine ⟨hslob, ?_, hbig ▸ h.big, ?_⟩
  · have hpieces : piecesOf t (c :: heads) = (c, n) :: piecesOf s heads := by
      rw [← piecesOf_congr (fun c hc => hunits c (h.head_mem hc)) hbig, piecesOf, List.map_cons,
        hsize]
      rfl
    rw [hpieces]
    exact h.pieces.cons hn hdisj
  · rw [h.live, addresses, addresses, hbig, List.map_cons, ← Multiset.cons_coe, Multiset.cons_add]

/-- **A big block more.** -/
theorem addBig (bb : BigBlock) (h : Steady I s live heads xs out)
    (hslob : Slob I t ys (out ∪ span bb.addr 2 ∪ span bb.pages (256 * 2 ^ bb.order)))
    (hdisj : Disjoint out (span bb.addr 2))
    (hdisj' : Disjoint (out ∪ span bb.addr 2) (span bb.pages (256 * 2 ^ bb.order)))
    (hunits : ∀ a ∈ out, t.units a = s.units a) (hbig : t.bigblocks = bb :: s.bigblocks)
    (hpages : 0 < bb.pages ∧ PGSIZE ∣ bb.pages) :
    Steady I t (bb.pages ::ₘ live) heads ys
      (out ∪ span bb.addr 2 ∪ span bb.pages (256 * 2 ^ bb.order)) := by
  refine ⟨hslob, ?_, fun b hb => ?_, ?_⟩
  · have hheads : heads.map (fun c => (c, t.units c)) = heads.map fun c => (c, s.units c) :=
      List.map_congr_left fun c hc => by rw [hunits c (h.head_mem hc)]
    have hperm : ((bb.pages, 256 * 2 ^ bb.order) :: (bb.addr, 2) :: piecesOf s heads).Perm
        (piecesOf t heads) := by
      rw [piecesOf, piecesOf, hbig, List.flatMap_cons, hheads]
      have hswap : ((bb.pages, 256 * 2 ^ bb.order) :: [(bb.addr, 2)]).Perm (bigPieces bb) :=
        List.Perm.swap ..
      exact (hswap.append_right _).trans (List.perm_append_comm_assoc ..)
    exact ((h.pieces.cons (by norm_num) hdisj).cons (by positivity) hdisj').perm hperm
  · rw [hbig] at hb
    rcases List.mem_cons.mp hb with rfl | hb
    · exact hpages
    · exact h.big b hb
  · rw [h.live, addresses, addresses, hbig, List.map_cons, ← Multiset.cons_coe, Multiset.add_cons]

/-- **A small block less.** -/
theorem removeSmall (h : Steady I s live heads xs out) (hc : c ∈ heads)
    (hslob : Slob I t ys (out \ span c (s.units c)))
    (hunits : ∀ a ∈ out \ span c (s.units c), t.units a = s.units a)
    (hbig : t.bigblocks = s.bigblocks) :
    Steady I t (live.erase (c + SLOB_UNIT)) (heads.erase c) ys (out \ span c (s.units c)) := by
  have hperm : heads.Perm (c :: heads.erase c) := List.perm_cons_erase hc
  have hpieces : Pieces (piecesOf s (heads.erase c)) (out \ span c (s.units c)) :=
    (h.pieces.perm ((hperm.map _).append_right _)).tail
  refine ⟨hslob, ?_, hbig ▸ h.big, ?_⟩
  · rw [piecesOf_congr (fun a ha => hunits a (hpieces.mem (List.mem_append_left _
      (List.mem_map_of_mem ha)))) hbig]
    exact hpieces
  · have hmap : (↑(heads.map (· + SLOB_UNIT)) : Multiset ℕ) =
        (c + SLOB_UNIT) ::ₘ ↑((heads.erase c).map (· + SLOB_UNIT)) :=
      Multiset.coe_eq_coe.mpr (hperm.map _)
    rw [h.live, addresses, addresses, hbig, hmap, Multiset.cons_add, Multiset.erase_cons_head]

/-- **A big block less.** -/
theorem removeBig {bb : BigBlock} (h : Steady I s live heads xs out) (hbb : bb ∈ s.bigblocks)
    (hslob : Slob I t ys ((out \ span bb.pages (256 * 2 ^ bb.order)) \ span bb.addr 2))
    (hunits : ∀ a ∈ (out \ span bb.pages (256 * 2 ^ bb.order)) \ span bb.addr 2,
      t.units a = s.units a) (hbig : t.bigblocks = s.bigblocks.erase bb) :
    Steady I t (live.erase bb.pages) heads ys
      ((out \ span bb.pages (256 * 2 ^ bb.order)) \ span bb.addr 2) := by
  have hperm : s.bigblocks.Perm (bb :: s.bigblocks.erase bb) := List.perm_cons_erase hbb
  set P := heads.map (fun c => (c, s.units c)) ++ (s.bigblocks.erase bb).flatMap bigPieces with hP
  have hall : (piecesOf s heads).Perm ((bb.pages, 256 * 2 ^ bb.order) :: (bb.addr, 2) :: P) := by
    have hswap : (bigPieces bb).Perm ((bb.pages, 256 * 2 ^ bb.order) :: [(bb.addr, 2)]) :=
      List.Perm.swap ..
    have hflat := (hperm.flatMap_right bigPieces).append_left (heads.map fun c => (c, s.units c))
    rw [List.flatMap_cons] at hflat
    exact (hflat.trans (List.perm_append_comm_assoc ..)).trans (hswap.append_right _)
  have hpieces := ((h.pieces.perm hall).tail).tail
  refine ⟨hslob, ?_, fun b hb => h.big b (List.mem_of_mem_erase (hbig ▸ hb)), ?_⟩
  · have hheads : heads.map (fun c => (c, t.units c)) = heads.map fun c => (c, s.units c) :=
      List.map_congr_left fun c hc => by
        rw [hunits c (hpieces.mem (List.mem_append_left _ (List.mem_map_of_mem hc)))]
    rw [piecesOf, hbig, hheads]
    exact hpieces
  · have hmap : (↑(s.bigblocks.map (·.pages)) : Multiset ℕ) =
        bb.pages ::ₘ ↑((s.bigblocks.erase bb).map (·.pages)) :=
      Multiset.coe_eq_coe.mpr (hperm.map _)
    rw [h.live, addresses, addresses, hbig, hmap, Multiset.add_cons, Multiset.erase_cons_head]

/-! ## One call -/

/-- What `kmalloc` leaves. -/
def Grants (I : Image) (live : Multiset ℕ) (r : Option ℕ) (t : SlobHeap) : Prop :=
  ∃ heads ys out', Steady I t (r.elim live (· ::ₘ live)) heads ys out'

/-- A small request, of any size. -/
theorem wp_kmalloc_small {allocPages : PageAlloc} (h : Steady I s live heads xs out)
    (hfresh : Fresh I allocPages) (hspares : SparesArena I s (slobUnits (size + 16)))
    (hs : size < 4064) (fuel : ℕ) : Act.wp (kmalloc fuel allocPages size) (Grants I live)
      (fun e => e = .spin ∧ fuel ≤ 2 * xs.length + 1) s := by
  have hs' : size < PGSIZE - SLOB_UNIT := (show size < 4080 by omega)
  have hn : 0 < slobUnits (size + 16) := by
    rw [slobUnits_eq]
    omega
  rw [kmalloc, if_pos hs', Act.wp_bind]
  refine Act.wp_mono (wp_slobAlloc h.slob hfresh hspares (by omega) fuel) ?_ (fun _ => id)
  intro r t hr
  cases r with
  | none =>
    obtain ⟨⟨ys, hys⟩, hunits, hbig⟩ := hr
    exact ⟨heads, ys, out, h.same hys hunits hbig⟩
  | some c =>
    obtain ⟨⟨ys, -, hys⟩, hdisj, hsz, hunits, hbig⟩ := hr
    exact ⟨c :: heads, ys, _, h.addSmall hys hn hdisj hsz hunits hbig⟩

/-- A big one. -/
theorem wp_kmalloc_big {allocPages : PageAlloc} (h : Steady I s live heads xs out)
    (hfresh : Fresh I allocPages) (hs : 4080 ≤ size) (fuel : ℕ) :
    Act.wp (kmalloc fuel allocPages size) (Grants I live)
      (fun e => e = .spin ∧ fuel ≤ 2 * xs.length + 1) s := by
  have hs' : ¬ size < PGSIZE - SLOB_UNIT := (show ¬ size < 4080 by omega)
  rw [kmalloc, if_neg hs', Act.wp_bind]
  refine Act.wp_mono (wp_slobAlloc h.slob hfresh (.inl (by decide)) (by decide) fuel) ?_ (fun _ => id)
  intro r t hr
  cases r with
  | none =>
    obtain ⟨⟨ys, hys⟩, hunits, hbig⟩ := hr
    exact ⟨heads, ys, out, h.same hys hunits hbig⟩
  | some c =>
    obtain ⟨⟨ys, hlen, hys⟩, hdisj, hsz, hunits, hbig⟩ := hr
    change Slob I t ys (out ∪ span c 2) at hys
    change Disjoint out (span c 2) at hdisj
    rw [Act.wp_bind]
    refine Act.wp_mono (hys.wp_slobGetFreePages hfresh _ _) ?_ (fun _ => id)
    intro r t₁ hr
    cases r with
    | none =>
      obtain rfl : t₁ = t := hr
      have hpos : 0 < c := hys.pos_of_out
        (Finset.mem_union_right _ (mem_span.mpr (by omega)))
      have hback : (out ∪ span c 2) \ span c 2 = out := by
        rw [Finset.union_sdiff_right, hdisj.sdiff_eq_left]
      rw [Act.wp_bind]
      refine Act.wp_mono (wp_slobFree (n := 2) hys hpos (by norm_num) rfl
        Finset.subset_union_right fuel) ?_ (fun e he => ⟨he.1, by omega⟩)
      rintro - t₂ ⟨⟨zs, -, hzs⟩, -, hunits₂, hbig₂, -⟩
      rw [hback] at hzs hunits₂
      exact ⟨heads, zs, out, h.same hzs (fun a ha => (hunits₂ a ha).trans (hunits a ha))
        (hbig₂.trans hbig)⟩
    | some p =>
      obtain ⟨hpos, hdvd, hslob, hdisj₁, hunits₁, hbig₁⟩ := hr
      simp only [Act.wp_bind, Act.wp_modify, Act.wp_pure]
      refine ⟨heads, ys, _, addBig ⟨c, findOrder (toS32 size), p⟩ h ?_ hdisj hdisj₁
        (fun a ha => ?_) ?_ ⟨hpos, hdvd⟩⟩
      · exact hslob.frame (fun _ _ => rfl) (fun _ _ => rfl) rfl rfl
      · dsimp only
        rw [hunits₁, hunits a ha]
      · dsimp only
        rw [hbig₁, hbig]

/-- **`kmalloc`**, of a size that spares the arena. -/
theorem wp_kmalloc {allocPages : PageAlloc} (h : Steady I s live heads xs out)
    (hfresh : Fresh I allocPages) (hspares : size = 0 → I.arena ≠ s.next s.slobfree) (fuel : ℕ) :
    Act.wp (kmalloc fuel allocPages size) (Grants I live)
      (fun e => e = .panic ∧ 4064 ≤ size ∧ size < 4080 ∨ e = .spin ∧ fuel ≤ 2 * xs.length + 1) s := by
  rcases lt_or_ge size 4064 with hs | hs
  · have hone : SparesArena I s (slobUnits (size + 16)) := by
      rw [SparesArena, slobUnits_eq]
      rcases Nat.eq_zero_or_pos size with rfl | hpos
      · exact .inr ⟨by decide, hspares rfl⟩
      · exact .inl (by omega)
    exact Act.wp_mono (h.wp_kmalloc_small hfresh hone hs fuel) (fun _ _ => id) fun _ => .inr
  rcases lt_or_ge size 4080 with hs' | hs'
  · have hlt : size < PGSIZE - SLOB_UNIT := hs'
    rw [kmalloc, if_pos hlt, slobAlloc, Act.wp_bind, Act.wp_bind, Act.wp_require]
    refine ⟨fun hroom => ?_, fun _ => .inl ⟨rfl, hs, hs'⟩⟩
    have : size + 16 + 16 < 4096 := hroom
    omega
  · exact Act.wp_mono (h.wp_kmalloc_big hfresh hs' fuel) (fun _ _ => id) fun _ => .inr

/-- **`kfree`** of a block in use: the big block at its address, if there is one, and otherwise a small
one. -/
theorem wp_kfree (h : Steady I s live heads xs out) (hp : p ∈ live) (fuel : ℕ) :
    Act.wp (kfree fuel p) (fun _ t => ∃ heads' ys out', Steady I t (live.erase p) heads' ys out')
      (fun e => e = .spin ∧ fuel ≤ xs.length) s := by
  have hwhere : (∃ bb ∈ s.bigblocks, bb.pages = p) ∨ ∃ c ∈ heads, c + 16 = p := by
    rw [h.live, addresses, Multiset.mem_add, Multiset.mem_coe, Multiset.mem_coe, List.mem_map,
      List.mem_map] at hp
    exact hp.symm
  have hp0 : p ≠ 0 := by
    rcases hwhere with ⟨bb, hbb, rfl⟩ | ⟨c, -, rfl⟩
    · exact (h.big bb hbb).1.ne'
    · omega
  rw [kfree, if_neg hp0, Act.wp_bind, Act.wp_get]
  dsimp only
  cases hfind : if p % PGSIZE = 0 then s.bigblocks.find? (·.pages = p) else none with
  | some bb =>
    have hdvd : p % PGSIZE = 0 := by
      by_contra hno
      simp [hno] at hfind
    rw [if_pos hdvd] at hfind
    have hbb : bb ∈ s.bigblocks := List.mem_of_find?_eq_some hfind
    obtain rfl : bb.pages = p := by simpa using List.find?_some hfind
    have hmem : ∀ x ∈ bigPieces bb, x ∈ piecesOf s heads := fun x hx =>
      List.mem_append_right _ (List.mem_flatMap.mpr ⟨bb, hbb, hx⟩)
    have haddr := h.pieces.within _ (hmem (bb.addr, 2) (by simp [bigPieces]))
    have hpages := h.pieces.within _ (hmem (bb.pages, 256 * 2 ^ bb.order) (by simp [bigPieces]))
    dsimp only at haddr hpages
    have happart : Disjoint (span bb.addr 2) (span bb.pages (256 * 2 ^ bb.order)) := by
      obtain ⟨u, v, huv⟩ := List.append_of_mem hbb
      have hpw := (List.pairwise_append.mp h.pieces.apart).2.1
      rw [huv, List.flatMap_append, List.flatMap_cons] at hpw
      have hpair := (List.pairwise_append.mp (List.pairwise_append.mp hpw).2.1).1
      exact (List.pairwise_cons.mp hpair).1 _ (List.mem_singleton_self _)
    have hput := h.slob.putPages (n := 2 ^ bb.order) (Nat.dvd_of_mod_eq_zero hdvd) hpages.2
    simp only [slobFreePages, Act.wp_bind, Act.wp_modify]
    generalize hs₁ : ({ s with bigblocks := s.bigblocks.erase bb,
                               used := s.used \ pagesAt bb.pages bb.order } : SlobHeap) = s₁
    have hslob₁ : Slob I s₁ xs (out \ span bb.pages (256 * 2 ^ bb.order)) :=
      hput.frame (fun _ _ => by rw [← hs₁]) (fun _ _ => by rw [← hs₁]) (by rw [← hs₁])
        (by rw [← hs₁]; rfl)
    have hb0 : 0 < bb.addr := h.slob.pos_of_out (haddr.2 (mem_span.mpr (by omega)))
    refine Act.wp_mono (wp_slobFree (n := 2) hslob₁ hb0 (by norm_num) rfl
      (Finset.subset_sdiff.mpr ⟨haddr.2, happart⟩) fuel) ?_ (fun _ => id)
    rintro - t ⟨⟨ys, -, hys⟩, -, hunits, hbig, -⟩
    exact ⟨heads, ys, _, h.removeBig hbb hys (fun a ha => by rw [hunits a ha, ← hs₁])
      (by rw [hbig, ← hs₁])⟩
  | none =>
    have hno : ∀ bb ∈ s.bigblocks, bb.pages ≠ p := by
      rintro bb hbb rfl
      rw [if_pos (Nat.mod_eq_zero_of_dvd (h.big bb hbb).2)] at hfind
      exact List.find?_eq_none.mp hfind bb hbb (by simp)
    obtain ⟨c, hc, rfl⟩ := hwhere.resolve_left fun ⟨bb, hbb, heq⟩ => hno bb hbb heq
    have hpiece := h.pieces.within (c, s.units c) (List.mem_append_left _ (List.mem_map_of_mem hc))
    have hcpos : 0 < c := h.slob.pos_of_out (h.head_mem hc)
    rw [Nat.add_sub_cancel]
    refine Act.wp_mono (wp_slobFree (n := s.units c) h.slob hcpos hpiece.1 rfl hpiece.2 fuel) ?_
      (fun _ => id)
    rintro - t ⟨⟨ys, -, hys⟩, -, hunits, hbig, -⟩
    exact ⟨heads.erase c, ys, _, h.removeSmall hc hys hunits hbig⟩

/-- At boot nothing is in use. -/
theorem init (units next : ℕ → ℕ) : Steady I (slobInit I.arena units next) 0 [] [I.arena] ∅ :=
  ⟨(Kept.init units next).slob, .nil, fun _ h => (nomatch h), rfl⟩

end Steady

/-! ## Runs -/

/-- The allocator keeps a record at `a`: a free block, or the header of a small block in use. -/
def Record (s : SlobHeap) (live : Multiset ℕ) (a : ℕ) : Prop :=
  OnFreeList s a ∨ (s.bigblocks.map (·.pages)).count (a + SLOB_UNIT) < live.count (a + SLOB_UNIT)

/-- **A run**: calls of `kmalloc` that are `ok`, of `kfree` on blocks in use, and writes of others to
memory that holds no record. -/
inductive Calls (I : Image) (ok : SlobHeap → ℕ → Prop) : SlobHeap → Multiset ℕ → Prop
  | init (units next : ℕ → ℕ) : Calls I ok (slobInit I.arena units next) 0
  | kmalloc {s t : SlobHeap} {live : Multiset ℕ} {fuel size : ℕ} {r : Option ℕ}
      {allocPages : PageAlloc} : Calls I ok s live → Fresh I allocPages → size < 2 ^ 64 → ok s size →
      kmalloc fuel allocPages size s = .ok (r, t) → Calls I ok t (r.elim live (· ::ₘ live))
  | kfree {s t : SlobHeap} {live : Multiset ℕ} {fuel p : ℕ} :
      Calls I ok s live → p ∈ live → kfree fuel p s = .ok ((), t) → Calls I ok t (live.erase p)
  | write {s : SlobHeap} {live : Multiset ℕ} (units next : ℕ → ℕ) : Calls I ok s live →
      (∀ a, Record s live a → units a = s.units a ∧ next a = s.next a) →
      Calls I ok { s with units := units, next := next } live

/-- **The request leaves the arena on the list**: it is for a byte, or another block comes next. -/
def Spares (I : Image) (s : SlobHeap) (size : ℕ) : Prop := size = 0 → I.arena ≠ s.next s.slobfree

/-- **Every call ends**: `kfree` of each block in use, and `kmalloc` of each size. -/
structure CallsEnd (I : Image) (s : SlobHeap) (live : Multiset ℕ) : Prop where
  kfree : ∀ p ∈ live, ∃ enough, ∀ fuel ≥ enough, ∃ t, kfree fuel p s = .ok ((), t)
  kmalloc : ∀ allocPages size, Fresh I allocPages → size < 2 ^ 64 →
    ∃ enough, ∀ fuel ≥ enough, kmalloc fuel allocPages size s ≠ .error .spin

section Runs

variable {live : Multiset ℕ} {heads : List ℕ} {allocPages : PageAlloc}

/-- Writes that leave the records alone are not seen. -/
theorem Steady.write (h : Steady I s live heads xs out) {units next : ℕ → ℕ}
    (hw : ∀ a, Record s live a → units a = s.units a ∧ next a = s.next a) :
    Steady I { s with units := units, next := next } live heads xs out := by
  have hfree : ∀ a ∈ xs, units a = s.units a ∧ next a = s.next a := fun a ha =>
    hw a (.inl ((h.slob.ring.mem_iff_iterate h.slob.start).mp ha))
  have hheads : ∀ a ∈ heads, units a = s.units a := fun a ha => by
    refine (hw a (.inr ?_)).1
    rw [h.live, addresses, Multiset.count_add, Multiset.coe_count, Multiset.coe_count]
    exact Nat.lt_add_of_pos_left (List.count_pos_iff.mpr (List.mem_map_of_mem ha))
  refine ⟨h.slob.frame (fun a ha => (hfree a ha).1) (fun a ha => (hfree a ha).2) rfl rfl, ?_, h.big,
    h.live⟩
  have hsame : piecesOf { s with units := units, next := next } heads = piecesOf s heads :=
    Steady.piecesOf_congr hheads rfl
  rw [hsame]
  exact h.pieces

/-- **While the arena is spared, the invariant holds.** -/
theorem Calls.steady (h : Calls I (Spares I) s live) : ∃ heads xs out, Steady I s live heads xs out := by
  induction h with
  | init units next => exact ⟨_, _, _, .init units next⟩
  | @kmalloc s t live fuel size r allocPages _ hfresh _ hspares hrun ih =>
    obtain ⟨heads, xs, out, hst⟩ := ih
    exact Act.wp_of_ok (hst.wp_kmalloc hfresh hspares fuel) hrun
  | @kfree s t live fuel p _ hp hrun ih =>
    obtain ⟨heads, xs, out, hst⟩ := ih
    exact Act.wp_of_ok (hst.wp_kfree hp fuel) hrun
  | write units next _ hw ih =>
    obtain ⟨heads, xs, out, hst⟩ := ih
    exact ⟨heads, xs, out, hst.write hw⟩

/-- A request for no byte takes the first block it comes to, whatever that is. -/
theorem Steady.wp_kmalloc_zero (h : Steady I s live heads xs out) (hfuel : 0 < fuel) :
    Act.wp (kmalloc fuel allocPages 0) (fun _ _ => True) (fun _ => False) s := by
  obtain ⟨fuel, rfl⟩ := Nat.exists_eq_succ_of_ne_zero hfuel.ne'
  have hroom : slobUnits (0 + SLOB_UNIT) ≤ s.units (s.next s.slobfree) :=
    h.slob.pos _ (h.slob.ring.next_mem h.slob.start)
  rw [kmalloc, if_pos (by decide), Act.wp_bind, slobAlloc, Act.wp_bind, Act.wp_require]
  refine ⟨fun _ => ?_, fun hno => absurd (by decide) hno⟩
  simp only [Act.wp_bind, Act.wp_get, Act.loop, takeUnits, setUnits, setNext, setSlobfree,
    Act.wp_ite, Act.wp_modify, Act.wp_pure]
  exact ⟨fun _ => ⟨fun _ => trivial, fun _ => trivial⟩, fun hno => absurd hroom hno⟩

/-- **`kmalloc` ends**, for every size, and returns unless the assertion fails. -/
theorem Steady.wp_kmalloc_ends (h : Steady I s live heads xs out) (size : ℕ) (hfresh : Fresh I allocPages)
    (hfuel : 2 * xs.length + 1 < fuel) : Act.wp (Kmalloc.kmalloc fuel allocPages size)
      (fun _ _ => True) (fun e => e = .panic ∧ 4064 ≤ size ∧ size < 4080) s := by
  by_cases hspares : Spares I s size
  · refine Act.wp_mono (h.wp_kmalloc hfresh hspares fuel) (fun _ _ _ => trivial) fun e he => ?_
    exact he.resolve_right fun hspin => absurd hfuel (not_lt.mpr hspin.2)
  · obtain ⟨rfl, -⟩ := Classical.not_imp.mp hspares
    exact Act.wp_mono (h.wp_kmalloc_zero (by omega)) (fun _ _ => id) fun _ => False.elim

/-- **While no request takes the arena, every call ends**, in every state that a run reaches. -/
theorem calls_end (h : Calls I (Spares I) s live) : CallsEnd I s live := by
  obtain ⟨heads, xs, out, hst⟩ := h.steady
  refine ⟨fun p hp => ⟨xs.length + 1, fun fuel hfuel => ?_⟩,
    fun allocPages size hfresh _ => ⟨2 * xs.length + 2, fun fuel hfuel hspin => ?_⟩⟩
  · have hrun := Act.wp_mono (hst.wp_kfree hp fuel) (fun _ _ => id) fun e he =>
      (absurd hfuel (by omega) : False)
    obtain ⟨⟨⟩, t, hrun, -⟩ := Act.wp_false_iff.mp hrun
    exact ⟨t, hrun⟩
  · have := Act.wp_of_error (hst.wp_kmalloc_ends size hfresh hfuel) hspin
    exact absurd this.1 (by decide)

/-- **Requests of both kinds end**, from boot. -/
theorem calls_end_boot : ∃ t u, kmalloc 5 bumpPages 100 bootHeap = .ok (some 0x80300010, t) ∧
    kmalloc 5 bumpPages 0 t = .ok (some 0x80300090, u) ∧
    CallsEnd bootImage u {0x80300090, 0x80300010} := by
  have hboot : Calls bootImage (Spares bootImage) bootHeap 0 := .init _ _
  have hfirst := hboot.kmalloc fresh_bumpPages (show 100 < 2 ^ 64 by norm_num)
    (fun hno => absurd hno (by norm_num))
    (show kmalloc 5 bumpPages 100 bootHeap = .ok (some 0x80300010, _) from rfl)
  have hsecond := hfirst.kmalloc fresh_bumpPages (show 0 < 2 ^ 64 by norm_num)
    (fun _ => by decide) (show kmalloc 5 bumpPages 0 _ = .ok (some 0x80300090, _) from rfl)
  exact ⟨_, _, rfl, rfl, calls_end hsecond⟩

/-! ## A heap without its arena -/

/-- **The search for a block that is its own list does not end.** -/
theorem reinsertionPoint_spins (hfree : s.slobfree = c) (hnext : s.next c = c) (fuel : ℕ) :
    reinsertionPoint fuel c s = .error .spin := by
  refine Act.error_of_wp ?_
  rw [reinsertionPoint, Act.wp_bind, Act.wp_get, hfree]
  induction fuel with
  | zero => exact rfl
  | succ fuel ih =>
    rw [Act.loop, Act.wp_bind, Act.wp_bind, Act.wp_get, hnext]
    dsimp only
    rw [if_neg fun hno => lt_irrefl c hno.1, if_neg fun hno => hno.2.elim (lt_irrefl c) (lt_irrefl c)]
    exact ih

/-- …so that to free it does not end. -/
theorem wp_slobFree_spins (hc : 0 < c) (hfree : s.slobfree = c) (hnext : s.next c = c) (fuel : ℕ) :
    Act.wp (slobFree fuel c 0) (fun _ _ => False) (fun e => e = .spin) s := by
  rw [slobFree, if_neg hc.ne']
  dsimp only
  rw [if_neg (not_not.mpr rfl), Act.wp_bind, Act.wp, reinsertionPoint_spins hfree hnext]

/-- **The first request of boot, for no byte, takes the arena**; to free it does not end. -/
theorem calls_spin : (∃ t, kmalloc 5 bumpPages 0 bootHeap = .ok (some (bootImage.arena + 16), t) ∧
    ∀ fuel, kfree fuel (bootImage.arena + 16) t = .error .spin) ∧
    ¬ ∀ s live, Calls bootImage (fun _ _ => True) s live → CallsEnd bootImage s live := by
  have hgrant : ∃ t, kmalloc 5 bumpPages 0 bootHeap = .ok (some (bootImage.arena + 16), t) ∧
      t.slobfree = bootImage.arena ∧ t.next bootImage.arena = bootImage.arena := ⟨_, rfl, rfl, rfl⟩
  obtain ⟨t, hrun, hfree, hnext⟩ := hgrant
  have hspin : ∀ fuel, kfree fuel (bootImage.arena + 16) t = .error .spin := fun fuel => by
    refine Act.error_of_wp ?_
    rw [kfree, if_neg (by decide), Act.wp_bind, Act.wp_get]
    dsimp only
    rw [if_neg (by decide)]
    exact wp_slobFree_spins (by decide) hfree hnext fuel
  refine ⟨⟨t, hrun, hspin⟩, fun h => ?_⟩
  have hboot : Calls bootImage (fun _ _ => True) bootHeap 0 := .init _ _
  have hcalls := hboot.kmalloc fresh_bumpPages (by norm_num) trivial hrun
  obtain ⟨enough, hend⟩ := (h _ _ hcalls).kfree (bootImage.arena + 16) (Multiset.mem_singleton_self _)
  obtain ⟨u, hu⟩ := hend enough le_rfl
  rw [hspin] at hu
  cases hu

/-! ## The assertion of `slob_alloc` -/

/-- A free stops in its search, if it stops. -/
theorem wp_slobFree_stops (fuel b size : ℕ) (s : SlobHeap) :
    Act.wp (slobFree fuel b size) (fun _ _ => True) (fun e => e = .spin) s := by
  have hsearch : ∀ s, Act.wp (do
      let cur ← reinsertionPoint fuel b
      joinNext b ((← get).next cur)
      joinPrev cur b
      setSlobfree cur) (fun _ _ => True) (fun e => e = .spin) s := fun s => by
    simp only [reinsertionPoint, Act.wp_bind, Act.wp_get]
    refine Act.wp_mono (Act.wp_loop_stops (I := fun _ => True) (E := fun e => e = Stop.spin) rfl
      (fun b s _ => ?_) fuel _ s trivial) (fun cur t _ => ?_) fun _ => id
    · simp only [Act.wp_bind, Act.wp_get, Act.wp_ite, Act.wp_pure]
      exact ⟨fun _ => trivial, fun _ => ⟨fun _ => trivial, fun _ => trivial⟩⟩
    · simp only [joinNext, joinPrev, setUnits, setNext, setSlobfree, Act.wp_bind, Act.wp_get,
        Act.wp_ite, Act.wp_modify]
      tauto
  rw [slobFree, Act.wp_ite]
  refine ⟨fun _ => trivial, fun _ => ?_⟩
  dsimp only
  rw [Act.wp_ite]
  exact ⟨fun _ => hsearch _, fun _ => hsearch s⟩

/-- Pages come or do not. -/
theorem wp_slobGetFreePages_any (order : ℕ) {Q : Option ℕ → SlobHeap → Prop} (hQ : ∀ r t, Q r t)
    (E : Stop → Prop) (s : SlobHeap) : Act.wp (slobGetFreePages allocPages order) Q E s := by
  simp only [slobGetFreePages, Act.wp_bind, Act.wp_get]
  split
  · exact hQ _ _
  · exact hQ _ _

/-- **Past its assertion** `slob_alloc` stops in a search, if it stops. -/
theorem wp_slobAlloc_stops (hsize : size + 16 < 4096) (fuel : ℕ) (s : SlobHeap) :
    Act.wp (slobAlloc fuel allocPages size) (fun _ _ => True) (fun e => e = .spin) s := by
  rw [slobAlloc, Act.wp_bind, Act.wp_require]
  refine ⟨fun _ => ?_, fun hno => absurd hsize hno⟩
  simp only [Act.wp_bind, Act.wp_get]
  refine Act.wp_loop_stops (I := fun _ => True) (E := fun e => e = Stop.spin) rfl (fun b s _ => ?_) fuel _ s
    trivial
  simp only [Act.wp_bind, Act.wp_get, Act.wp_ite, Act.wp_pure]
  refine ⟨fun _ => ?_, fun _ => ⟨fun _ => ⟨fun _ => trivial, fun _ => ?_⟩, fun _ => trivial⟩⟩
  · simp only [takeUnits, setUnits, setNext, setSlobfree, Act.wp_bind, Act.wp_get, Act.wp_ite,
      Act.wp_modify]
    tauto
  · refine wp_slobGetFreePages_any 0 (fun r t => ?_) _ s
    cases r with
    | none => exact trivial
    | some page =>
      rw [Act.wp_bind]
      exact Act.wp_mono (wp_slobFree_stops fuel page PGSIZE t) (fun _ _ _ => trivial) fun _ => id

/-- **The assertion fails for sixteen sizes**, in every heap: those that `__kmalloc` takes for small and
`slob_alloc` does not. -/
theorem kmalloc_panics_iff (fuel : ℕ) (allocPages : PageAlloc) (s : SlobHeap) :
    kmalloc fuel allocPages size s = .error .panic ↔ 4064 ≤ size ∧ size < 4080 := by
  constructor
  · intro hpanic
    by_contra hno
    have hstops : Act.wp (kmalloc fuel allocPages size) (fun _ _ => True) (fun e => e = .spin) s := by
      rw [kmalloc, Act.wp_ite]
      refine ⟨fun hs => ?_, fun hb => ?_⟩
      · have hs : size < 4080 := hs
        rw [Act.wp_bind]
        have hroom : size + 16 + 16 < 4096 := by omega
        exact Act.wp_mono (wp_slobAlloc_stops hroom fuel s) (fun _ _ _ => trivial) fun _ => id
      · rw [Act.wp_bind]
        refine Act.wp_mono (wp_slobAlloc_stops (by norm_num) fuel s) (fun r t _ => ?_) fun _ => id
        cases r with
        | none => exact trivial
        | some bb =>
          rw [Act.wp_bind]
          refine wp_slobGetFreePages_any _ (fun r t => ?_) _ t
          cases r with
          | some pages => exact trivial
          | none =>
            rw [Act.wp_bind]
            exact Act.wp_mono (wp_slobFree_stops fuel bb _ t) (fun _ _ _ => trivial) fun _ => id
    exact absurd (Act.wp_of_error hstops hpanic) (by decide)
  · rintro ⟨hlo, hhi⟩
    refine Act.error_of_wp ?_
    have hs : size < PGSIZE - SLOB_UNIT := hhi
    rw [kmalloc, if_pos hs, slobAlloc, Act.wp_bind, Act.wp_bind, Act.wp_require]
    refine ⟨fun hroom => ?_, fun _ => rfl⟩
    have : size + 16 + 16 < 4096 := hroom
    omega

/-- **When `kmalloc` returns**: its assertion fails for sixteen sizes, whatever the heap; of the others
it returns each, in every heap that a run reaches. -/
theorem kmalloc_returns_iff (hfresh : Fresh I allocPages) :
    (∀ s fuel, kmalloc fuel allocPages size s = .error .panic ↔ 4064 ≤ size ∧ size < 4080) ∧
      ∀ s live, Calls I (Spares I) s live → ((∃ enough, ∀ fuel ≥ enough,
        ∃ r t, kmalloc fuel allocPages size s = .ok (r, t)) ↔ size < 4064 ∨ 4080 ≤ size) := by
  refine ⟨fun s fuel => kmalloc_panics_iff fuel allocPages s, fun s live h => ⟨?_, fun hsize => ?_⟩⟩
  · rintro ⟨enough, hret⟩
    obtain ⟨r, t, hrun⟩ := hret enough le_rfl
    by_contra hno
    rw [(kmalloc_panics_iff enough allocPages s).mpr (by omega)] at hrun
    exact nomatch hrun
  · obtain ⟨heads, xs, out, hst⟩ := h.steady
    refine ⟨2 * xs.length + 2, fun fuel hfuel => ?_⟩
    obtain ⟨r, t, hrun, -⟩ := Act.wp_false_iff.mp (Act.wp_mono (hst.wp_kmalloc_ends size
      hfresh hfuel) (fun _ _ => id) fun e he => by omega)
    exact ⟨r, t, hrun⟩

/-- At boot a block of 4063 bytes is granted. -/
theorem kmalloc_returns_iff_boot : ∃ enough, ∀ fuel ≥ enough, ∃ r t,
    kmalloc fuel bumpPages 4063 bootHeap = .ok (r, t) :=
  ((kmalloc_returns_iff fresh_bumpPages).2 bootHeap 0 (.init _ _)).mpr (.inl (by norm_num))

/-- **At boot a block of 4064 bytes is not.** -/
theorem kmalloc_asserts : kmalloc 5 bumpPages 4064 bootHeap = .error .panic ∧
    ¬ ∀ s live, Calls bootImage (fun _ _ => True) s live → ∀ size < 2 ^ 64, ∃ enough, ∀ fuel ≥ enough,
      ∃ r t, kmalloc fuel bumpPages size s = .ok (r, t) := by
  have hpanic : ∀ fuel, kmalloc fuel bumpPages 4064 bootHeap = .error .panic := fun fuel =>
    (kmalloc_panics_iff fuel bumpPages bootHeap).mpr ⟨le_rfl, by norm_num⟩
  refine ⟨hpanic 5, fun h => ?_⟩
  obtain ⟨enough, hret⟩ := h bootHeap 0 (.init _ _) 4064 (by norm_num)
  obtain ⟨r, t, hrun⟩ := hret enough le_rfl
  rw [hpanic] at hrun
  exact nomatch hrun

end Runs

end UCore.Kmalloc
