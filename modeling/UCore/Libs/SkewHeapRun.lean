import UCore.Libs.SkewHeap

/-!
# Libs/SkewHeapRun — any node out of a skew heap, and whole runs

        y                      y
       / \                    / \
      x   b   ── remove x ─▸ rep b        rep = merge (x->left) (x->right)
     / \
    l   r

A node is found through its parent pointer alone, so a stale one would be fatal; `IsTree` says that
there is none.  A run inserts and removes any nodes, under any keys: those of the nodes in the heap
stay, but for the root's, which may change before the root is removed.
-/

namespace UCore.SkewHeap

open SkewTree BinaryTree

variable {N K : Type} [DecidableEq N]

/-- **`comp` on keys**: it says `-1`, `0` or `1`, and orders them totally. -/
structure Orders (cmp : K → K → ℤ) : Prop where
  values : ∀ j k, cmp j k = -1 ∨ cmp j k = 0 ∨ cmp j k = 1
  anti : ∀ j k, cmp k j = -cmp j k
  trans : ∀ i j k, cmp i j ≤ 0 → cmp j k ≤ 0 → cmp i k ≤ 0

/-- `comp` on nodes, at their keys. -/
def compAt (cmp : K → K → ℤ) (key : N → K) (x y : N) : ℤ := cmp (key x) (key y)

/-- **A heap of the nodes `S`**: a tree in heap order, with a parent pointer wherever there is a
parent. -/
structure IsHeap (cmp : K → K → ℤ) (key : N → K) (m : N → SkewHeapEntry N) (p : Option N)
    (S : Finset N) : Prop where
  tree : ∃ t, IsTree m p t ∧ (nodes t).Nodup ∧ (nodes t).toFinset = S ∧
    Heap (fun x y => compAt cmp key x y ≤ 0) t
  root : ∀ c ∈ p, (m c).parent = none
  parent : ∀ x ∈ S, p ≠ some x →
    ∃ y ∈ S, (m x).parent = some y ∧ ((m y).left = some x ∨ (m y).right = some x)

/-- **A run of calls**, with the memory, the heap, the keys and the nodes that are in.  What is not
in the heap may change at any time. -/
inductive Built (cmp : K → K → ℤ) : (N → SkewHeapEntry N) → Option N → (N → K) → Finset N → Prop
  | empty (m : N → SkewHeapEntry N) (key : N → K) : Built cmp m none key ∅
  | other {m m' : N → SkewHeapEntry N} {p : Option N} {key key' : N → K} {S : Finset N} :
      Built cmp m p key S → (∀ x ∈ S, m' x = m x ∧ key' x = key x) → Built cmp m' p key' S
  | insert {m m' : N → SkewHeapEntry N} {p p' : Option N} {key : N → K} {S : Finset N} {b : N}
      {depth : ℕ} : Built cmp m p key S → b ∉ S → S.card + 1 < depth →
      skewHeapInsert (compAt cmp key) depth p b m = .ok (p', m') → Built cmp m' p' key (insert b S)
  | remove {m m' : N → SkewHeapEntry N} {p p' : Option N} {key : N → K} {S : Finset N} {b : N}
      {depth : ℕ} : Built cmp m p key S → b ∈ S → S.card < depth →
      skewHeapRemove (compAt cmp key) depth p b m = .ok (p', m') → Built cmp m' p' key (S.erase b)
  | removeRoot {m m' : N → SkewHeapEntry N} {p' : Option N} {key key' : N → K} {S : Finset N} {b : N}
      {depth : ℕ} : Built cmp m (some b) key S → b ∈ S → (∀ x ∈ S, x ≠ b → key' x = key x) →
      S.card < depth → skewHeapRemove (compAt cmp key') depth (some b) b m = .ok (p', m') →
      Built cmp m' p' key' (S.erase b)

variable {m m' : N → SkewHeapEntry N} {comp : N → N → ℤ} {p q : Option N} {t l r : BinaryTree N}
  {x y z : N} {depth : ℕ}

/-! ## The place of a node -/

omit [DecidableEq N] in
/-- **Every node but the root** is a child of its parent. -/
theorem IsTree.exists_parent (h : IsTree m p t) (hx : x ∈ nodes t) (hroot : p ≠ some x) :
    ∃ y ∈ nodes t, (m x).parent = some y ∧ ((m y).left = some x ∨ (m y).right = some x) := by
  induction t generalizing p with
  | nil => exact absurd hx List.not_mem_nil
  | node z l r hl hr =>
    obtain ⟨rfl, htl, htr, hpl, hpr⟩ := h
    have hside := (List.mem_cons.mp hx).resolve_left fun heq => hroot (congrArg some heq.symm)
    rcases List.mem_append.mp hside with hxl | hxr
    · by_cases hchild : (m z).left = some x
      · exact ⟨z, List.mem_cons_self, hpl x hchild, .inl hchild⟩
      · obtain ⟨y, hy, hyx⟩ := hl htl hxl hchild
        exact ⟨y, by simp [hy], hyx⟩
    · by_cases hchild : (m z).right = some x
      · exact ⟨z, List.mem_cons_self, hpr x hchild, .inr hchild⟩
      · obtain ⟨y, hy, hyx⟩ := hr htr hxr hchild
        exact ⟨y, by simp [hy], hyx⟩

/-- The entry of `y`, with `rep` in the place of its child `x`. -/
def replaceChild (e : SkewHeapEntry N) (x : N) (rep : Option N) : SkewHeapEntry N :=
  if e.left = some x then { e with left := rep } else { e with right := rep }

@[simp] theorem replaceChild_parent (e : SkewHeapEntry N) (x : N) (rep : Option N) :
    (replaceChild e x rep).parent = e.parent := by
  unfold replaceChild
  split <;> rfl

/-- **Where a node is**: the trees `l` and `r` below it, and its parent `y`.  Once a tree `rep` of the
nodes of `l` and `r` is in its place, and nothing else has changed, the whole is the tree without it. -/
theorem IsTree.locate (first : N → N → Bool) (h : IsTree m p t) (hnd : (nodes t).Nodup)
    (hx : x ∈ nodes t) (hroot : p ≠ some x) :
    ∃ l r y, IsTree m (m x).left l ∧ IsTree m (m x).right r ∧ (m x).parent = some y ∧
      y ∈ nodes t ∧ y ∉ nodes l ++ nodes r ∧ (nodes l ++ nodes r).Nodup ∧
      (∀ z ∈ nodes l ++ nodes r, z ∈ nodes t) ∧ l.numNodes + r.numNodes < t.numNodes ∧
      ∀ m' rep, IsTree m' rep (merge first l r) → (∀ c ∈ rep, (m' c).parent = some y) →
        m' y = replaceChild (m y) x rep →
        (∀ z ∈ nodes t, z ≠ y → z ∉ nodes l ++ nodes r → m' z = m z) →
        IsTree m' p (remove first x t) ∧ ∀ c ∈ p, (m' c).parent = (m c).parent := by
  induction t generalizing p with
  | nil => exact absurd hx List.not_mem_nil
  | node z a b iha ihb =>
    obtain ⟨rfl, hta, htb, hpa, hpb⟩ := h
    obtain ⟨hz, hndab⟩ := List.nodup_cons.mp hnd
    obtain ⟨hnda, hndb, hab⟩ := List.nodup_append.mp hndab
    have hzx : z ≠ x := fun heq => hroot (congrArg some heq)
    have hself : ∀ {m' : N → SkewHeapEntry N}, (m' z).parent = (m z).parent →
        ∀ c ∈ some z, (m' c).parent = (m c).parent := fun heq c hc =>
      Option.mem_some_iff.mp hc ▸ heq
    rcases List.mem_append.mp ((List.mem_cons.mp hx).resolve_left (Ne.symm hzx)) with hxa | hxb
    · have hxb : x ∉ nodes b := fun hxb => hab x hxa x hxb rfl
      have hremove : remove first x (.node z a b) = .node z (remove first x a) b := by
        rw [remove, if_neg hzx, remove_of_notMem hxb]
      -- the other side is as it was, wherever the change is
      have hother : ∀ {m' : N → SkewHeapEntry N}, (∀ w ∈ nodes b, m' w = m w) →
          IsTree m' (m z).right b ∧ ∀ c ∈ (m z).right, (m' c).parent = some z := fun hsame =>
        ⟨htb.congr hsame, fun c hc => (hsame c (htb.mem_nodes hc)).symm ▸ hpb c hc⟩
      by_cases hchild : (m z).left = some x
      · rw [hchild] at hta
        obtain _ | ⟨w, l, r⟩ := a
        · cases hta
        obtain ⟨heq, htl, htr, -, -⟩ := hta
        obtain rfl : x = w := Option.some.inj heq
        obtain ⟨hxlr, hndlr⟩ := List.nodup_cons.mp hnda
        refine ⟨l, r, z, htl, htr, hpa x hchild, List.mem_cons_self, fun hz' => hz ?_, hndlr,
          fun w hw => by simp only [nodes_node, List.mem_cons, List.mem_append] at hw ⊢; tauto,
          by simp only [numNodes]; omega, fun m' rep htree hpar hy hsame => ?_⟩
        · simp only [nodes_node, List.mem_cons, List.mem_append] at hz' ⊢
          tauto
        have hy : m' z = { m z with left := rep } := by rw [hy, replaceChild, if_pos hchild]
        have hb : ∀ w ∈ nodes b, m' w = m w := fun w hw => by
          refine hsame w (by simp [hw]) (fun heq => hz (by simp [← heq, hw])) fun hlr => ?_
          exact hab w (List.mem_cons_of_mem x hlr) w hw rfl
        obtain ⟨hr, hrp⟩ := hother hb
        rw [hremove, remove, if_pos rfl]
        refine ⟨⟨rfl, ?_, ?_, ?_, ?_⟩, hself (by rw [hy])⟩ <;> rw [hy]
        exacts [htree, hr, hpar, hrp]
      · obtain ⟨l, r, y, htl, htr, hpar, hy, hylr, hndlr, hsub, hnum, hrep⟩ := iha hta hnda hxa hchild
        have hzy : z ≠ y := fun heq => hz (by simp [heq, hy])
        have hzlr : z ∉ nodes l ++ nodes r := fun hzlr => hz (List.mem_append_left _ (hsub z hzlr))
        refine ⟨l, r, y, htl, htr, hpar, by simp [hy], hylr, hndlr,
          fun w hw => by simp [hsub w hw], by simp only [numNodes]; omega,
          fun m' rep htree hrp hym hsame => ?_⟩
        obtain ⟨hta', hpa'⟩ := hrep m' rep htree hrp hym fun w hw => hsame w (by simp [hw])
        have hzm : m' z = m z := hsame z List.mem_cons_self hzy hzlr
        have hb : ∀ w ∈ nodes b, m' w = m w := fun w hw =>
          hsame w (by simp [hw]) (fun heq => hab y hy w hw heq.symm)
            fun hlr => hab w (hsub w hlr) w hw rfl
        obtain ⟨hr, hrp⟩ := hother hb
        rw [hremove]
        refine ⟨⟨rfl, ?_, ?_, fun c hc => ?_, ?_⟩, hself (by rw [hzm])⟩
        · rwa [hzm]
        · rwa [hzm]
        · rw [hzm] at hc
          exact (hpa' c hc).trans (hpa c hc)
        · rwa [hzm]
    · have hxa : x ∉ nodes a := fun hxa => hab x hxa x hxb rfl
      have hnotLeft : (m z).left ≠ some x := fun hleft => hxa (hta.mem_nodes hleft)
      have hremove : remove first x (.node z a b) = .node z a (remove first x b) := by
        rw [remove, if_neg hzx, remove_of_notMem hxa]
      have hother : ∀ {m' : N → SkewHeapEntry N}, (∀ w ∈ nodes a, m' w = m w) →
          IsTree m' (m z).left a ∧ ∀ c ∈ (m z).left, (m' c).parent = some z := fun hsame =>
        ⟨hta.congr hsame, fun c hc => (hsame c (hta.mem_nodes hc)).symm ▸ hpa c hc⟩
      by_cases hchild : (m z).right = some x
      · rw [hchild] at htb
        obtain _ | ⟨w, l, r⟩ := b
        · cases htb
        obtain ⟨heq, htl, htr, -, -⟩ := htb
        obtain rfl : x = w := Option.some.inj heq
        obtain ⟨hxlr, hndlr⟩ := List.nodup_cons.mp hndb
        refine ⟨l, r, z, htl, htr, hpb x hchild, List.mem_cons_self, fun hz' => hz ?_, hndlr,
          fun w hw => by simp only [nodes_node, List.mem_cons, List.mem_append] at hw ⊢; tauto,
          by simp only [numNodes]; omega, fun m' rep htree hpar hy hsame => ?_⟩
        · simp only [nodes_node, List.mem_cons, List.mem_append] at hz' ⊢
          tauto
        have hy : m' z = { m z with right := rep } := by rw [hy, replaceChild, if_neg hnotLeft]
        have ha : ∀ w ∈ nodes a, m' w = m w := fun w hw => by
          refine hsame w (by simp [hw]) (fun heq => hz (by simp [← heq, hw])) fun hlr => ?_
          exact hab w hw w (List.mem_cons_of_mem x hlr) rfl
        obtain ⟨hl, hlp⟩ := hother ha
        rw [hremove, remove, if_pos rfl]
        refine ⟨⟨rfl, ?_, ?_, ?_, ?_⟩, hself (by rw [hy])⟩ <;> rw [hy]
        exacts [hl, htree, hlp, hpar]
      · obtain ⟨l, r, y, htl, htr, hpar, hy, hylr, hndlr, hsub, hnum, hrep⟩ := ihb htb hndb hxb hchild
        have hzy : z ≠ y := fun heq => hz (by simp [heq, hy])
        have hzlr : z ∉ nodes l ++ nodes r := fun hzlr => hz (List.mem_append_right _ (hsub z hzlr))
        refine ⟨l, r, y, htl, htr, hpar, by simp [hy], hylr, hndlr,
          fun w hw => by simp [hsub w hw], by simp only [numNodes]; omega,
          fun m' rep htree hrp hym hsame => ?_⟩
        obtain ⟨htb', hpb'⟩ := hrep m' rep htree hrp hym fun w hw => hsame w (by simp [hw])
        have hzm : m' z = m z := hsame z List.mem_cons_self hzy hzlr
        have ha : ∀ w ∈ nodes a, m' w = m w := fun w hw =>
          hsame w (by simp [hw]) (fun heq => hab w hw y hy heq)
            fun hlr => hab w hw w (hsub w hlr) rfl
        obtain ⟨hl, hlp⟩ := hother ha
        rw [hremove]
        refine ⟨⟨rfl, ?_, ?_, ?_, fun c hc => ?_⟩, hself (by rw [hzm])⟩
        · rwa [hzm]
        · rwa [hzm]
        · rwa [hzm]
        · rw [hzm] at hc
          exact (hpb' c hc).trans (hpb c hc)

/-! ## `skew_heap_remove` -/

/-- **`skew_heap_remove` of any node** leaves the tree without it; the root has no parent. -/
theorem wp_skewHeapRemove (ht : IsTree m p t) (hroot : ∀ c ∈ p, (m c).parent = none)
    (hnd : (nodes t).Nodup) (hx : x ∈ nodes t) (hdepth : t.numNodes < depth) :
    Act.wp (skewHeapRemove comp depth p x)
      (fun p' m' => IsTree m' p' (remove (before comp) x t) ∧ ∀ c ∈ p', (m' c).parent = none)
      (fun _ => False) m := by
  by_cases hp : p = some x
  · subst hp
    obtain _ | ⟨w, l, r⟩ := t
    · cases ht
    obtain rfl : x = w := Option.some.inj ht.1
    obtain ⟨-, hndlr⟩ := List.nodup_cons.mp hnd
    simp only [numNodes] at hdepth
    rw [remove, if_pos rfl]
    exact Act.wp_mono (wp_skewHeapRemove_root ht (hroot x rfl) hndlr (by omega))
      (fun _ _ h => ⟨h.1, h.2.1⟩) fun _ => id
  · obtain ⟨l, r, y, htl, htr, hpar, hy, hylr, hndlr, -, hnum, hrep⟩ :=
      ht.locate (before comp) hnd hx hp
    simp only [skewHeapRemove, Act.wp_bind, Act.wp_get, Act.wp_modify]
    refine Act.wp_mono (wp_skewHeapMerge htl htr hndlr (by omega)) (fun rep m₁ hm₁ => ?_) fun _ => id
    have h := hm₁.1
    have hperm := nodes_merge (before comp) l r
    have hrepMem : ∀ c ∈ rep, c ∈ nodes l ++ nodes r := fun c hc => hperm.subset (h.tree.mem_nodes hc)
    have hym : setParent m₁ rep (some y) y = m y := by
      rw [setParent_of_ne fun heq => hylr (hrepMem y heq), h.other y hylr]
    rw [hpar]
    -- both branches put `rep` where the parent has `x`
    have hstore : Act.wp (do
        if ((← get) y).left = some x then
          modify fun m => modifyEntry m y fun e => { e with left := rep }
        else
          modify fun m => modifyEntry m y fun e => { e with right := rep }
        return p : Call N (Option N))
        (fun p' m' => p' = p ∧ m' = modifyEntry (setParent m₁ rep (some y)) y fun e =>
          replaceChild e x rep) (fun _ => False) (setParent m₁ rep (some y)) := by
      simp only [Act.wp_bind, Act.wp_get, Act.wp_ite, Act.wp_modify, Act.wp_pure]
      refine ⟨fun hleft => ⟨trivial, ?_⟩, fun hleft => ⟨trivial, ?_⟩⟩
      · rw [modifyEntry, modifyEntry, replaceChild, if_pos hleft]
      · rw [modifyEntry, modifyEntry, replaceChild, if_neg hleft]
    refine Act.wp_mono hstore (fun p' m' hs' => ?_) fun _ => id
    obtain ⟨rfl, rfl⟩ := hs'
    have hne : ∀ z, z ≠ y → modifyEntry (setParent m₁ rep (some y)) y (fun e => replaceChild e x rep) z =
        setParent m₁ rep (some y) z := fun z hz => Function.update_of_ne hz ..
    have hself : modifyEntry (setParent m₁ rep (some y)) y (fun e => replaceChild e x rep) y =
        replaceChild (m y) x rep := by
      rw [modifyEntry, Function.update_self, hym]
    obtain ⟨htree, hparent⟩ := hrep _ rep
      ((h.tree.setParent (hperm.nodup_iff.mpr hndlr)).congr fun z hz =>
        hne z (ne_of_mem_of_not_mem (hperm.subset hz) hylr))
      (fun c hc => by
        rw [hne c (ne_of_mem_of_not_mem (hrepMem c hc) hylr), setParent_apply,
          if_pos (Option.mem_def.mp hc)]) hself
      fun z _ hzy hzlr => by
        rw [hne z hzy, setParent_of_ne fun heq => hzlr (hrepMem z heq), h.other z hzlr]
    exact ⟨htree, fun c hc => (hparent c hc).trans (hroot c hc)⟩

/-! ## Runs -/

section Runs

variable {cmp : K → K → ℤ} {key key' : N → K} {S : Finset N} {b : N}

omit [DecidableEq N] in
/-- The comparison decides the order of any two nodes. -/
theorem Orders.before (hcmp : Orders cmp) (key : N → K) (x y : N) :
    if before (compAt cmp key) x y then compAt cmp key x y ≤ 0 else compAt cmp key y x ≤ 0 := by
  have hvalues := hcmp.values (key x) (key y)
  have hanti := hcmp.anti (key x) (key y)
  change cmp (key x) (key y) = _ ∨ _ at hvalues
  rw [SkewHeap.before, compAt, compAt]
  split
  · next h =>
    have := of_decide_eq_true h
    omega
  · next h =>
    have hno : ¬ cmp (key x) (key y) = -1 := fun heq => h (decide_eq_true heq)
    omega

/-- A tree is a heap, with the parents that its shape gives. -/
theorem IsHeap.of_tree (htree : IsTree m p t) (hnd : (nodes t).Nodup) (hS : (nodes t).toFinset = S)
    (hheap : Heap (fun x y => compAt cmp key x y ≤ 0) t) (hroot : ∀ c ∈ p, (m c).parent = none) :
    IsHeap cmp key m p S := by
  have hmem : ∀ z, z ∈ S ↔ z ∈ nodes t := fun z => by rw [← hS, List.mem_toFinset]
  refine ⟨⟨t, htree, hnd, hS, hheap⟩, hroot, fun x hx hp => ?_⟩
  obtain ⟨y, hy, hpar⟩ := htree.exists_parent ((hmem x).mp hx) hp
  exact ⟨y, (hmem y).mpr hy, hpar⟩

theorem numNodes_eq (hnd : (nodes t).Nodup) (hS : (nodes t).toFinset = S) : t.numNodes = S.card := by
  rw [← hS, List.toFinset_card_of_nodup hnd, length_nodes]

/-- **`skew_heap_insert`** gives the heap with one node more. -/
theorem IsHeap.wp_skewHeapInsert (h : IsHeap cmp key m p S) (hcmp : Orders cmp) (hb : b ∉ S)
    (hdepth : S.card + 1 < depth) :
    Act.wp (skewHeapInsert (compAt cmp key) depth p b)
      (fun p' m' => IsHeap cmp key m' p' (insert b S)) (fun _ => False) m := by
  obtain ⟨⟨t, ht, hnd, hS, hheap⟩, hroot, -⟩ := h
  have hbt : b ∉ nodes t := fun hmem => hb (hS ▸ List.mem_toFinset.mpr hmem)
  refine Act.wp_mono (SkewHeap.wp_skewHeapInsert ht hroot (List.nodup_cons.mpr ⟨hbt, hnd⟩)
    (by rw [numNodes_eq hnd hS]; exact hdepth)) (fun p' m' ⟨htree, hpar, _⟩ => ?_) fun _ => id
  have hperm : (nodes (merge (before (compAt cmp key)) t (.node b .nil .nil))).Perm (b :: nodes t) :=
    (nodes_merge _ _ _).trans (List.perm_append_singleton b _)
  refine .of_tree htree (hperm.nodup_iff.mpr (List.nodup_cons.mpr ⟨hbt, hnd⟩)) ?_
    (heap_merge (fun x y z => hcmp.trans _ _ _) hheap
      ⟨fun z hz => absurd hz List.not_mem_nil, trivial, trivial⟩ fun x _ y _ => hcmp.before key x y) hpar
  rw [List.toFinset_eq_of_perm _ _ hperm, List.toFinset_cons, hS]

/-- **`skew_heap_remove`** gives the heap with one node less, if the keys that matter are as they were:
all of them, or all but the root's, where it is the root that goes. -/
theorem IsHeap.wp_skewHeapRemove (h : IsHeap cmp key m p S) (hcmp : Orders cmp) (hb : b ∈ S)
    (hkey : (∀ x ∈ S, key' x = key x) ∨ p = some b ∧ ∀ x ∈ S, x ≠ b → key' x = key x)
    (hdepth : S.card < depth) :
    Act.wp (skewHeapRemove (compAt cmp key') depth p b)
      (fun p' m' => IsHeap cmp key' m' p' (S.erase b)) (fun _ => False) m := by
  obtain ⟨⟨t, ht, hnd, hS, hheap⟩, hroot, -⟩ := h
  have hmem : ∀ z, z ∈ nodes t ↔ z ∈ S := fun z => by rw [← hS, List.mem_toFinset]
  have hbt := (hmem b).mpr hb
  refine Act.wp_mono (SkewHeap.wp_skewHeapRemove ht hroot hnd hbt
    (by rw [numNodes_eq hnd hS]; exact hdepth)) (fun p' m' ⟨htree, hpar⟩ => ?_) fun _ => id
  have hperm : (b :: nodes (remove (before (compAt cmp key')) b t)).Perm (nodes t) := nodes_remove hbt hnd
  obtain ⟨hnot, hnd'⟩ := List.nodup_cons.mp (hperm.nodup_iff.mpr hnd)
  have hS' : (nodes (remove (before (compAt cmp key')) b t)).toFinset = S.erase b := by
    rw [← hS, ← List.toFinset_eq_of_perm _ _ hperm, List.toFinset_cons, Finset.erase_insert]
    rwa [List.mem_toFinset]
  refine .of_tree htree hnd' hS' ?_ hpar
  have hfirst := fun (x : N) (_ : x ∈ nodes t) (y : N) (_ : y ∈ nodes t) => hcmp.before key' x y
  rcases hkey with hkey | ⟨rfl, hkey⟩
  · refine heap_remove (fun x y z => hcmp.trans _ _ _) (hheap.congr fun x hx y hy hle => ?_) hfirst
    rwa [compAt, hkey x ((hmem x).mp hx), hkey y ((hmem y).mp hy)]
  · -- the root is not looked at: its children are merged
    obtain _ | ⟨w, l, r⟩ := t
    · exact nomatch ht
    obtain rfl : b = w := Option.some.inj ht.1
    obtain ⟨hblr, -⟩ := List.nodup_cons.mp hnd
    have hsame : ∀ x ∈ nodes l ++ nodes r, key' x = key x := fun x hx =>
      hkey x ((hmem x).mp (List.mem_cons_of_mem b hx)) (ne_of_mem_of_not_mem hx hblr)
    rw [remove, if_pos rfl]
    refine heap_merge (fun x y z => hcmp.trans _ _ _) (hheap.2.1.congr fun x hx y hy hle => ?_)
      (hheap.2.2.congr fun x hx y hy hle => ?_) fun x _ y _ => hcmp.before key' x y
    · rwa [compAt, hsame x (List.mem_append_left _ hx), hsame y (List.mem_append_left _ hy)]
    · rwa [compAt, hsame x (List.mem_append_right _ hx), hsame y (List.mem_append_right _ hy)]

/-- What is not in the heap may change. -/
theorem IsHeap.other (h : IsHeap cmp key m p S) (hsame : ∀ x ∈ S, m' x = m x ∧ key' x = key x) :
    IsHeap cmp key' m' p S := by
  obtain ⟨⟨t, ht, hnd, hS, hheap⟩, hroot, -⟩ := h
  have hmem : ∀ z ∈ nodes t, z ∈ S := fun z hz => hS ▸ List.mem_toFinset.mpr hz
  refine .of_tree (ht.congr fun y hy => (hsame y (hmem y hy)).1) hnd hS
    (hheap.congr fun x hx y hy hle => ?_) fun c hc => ?_
  · rwa [compAt, (hsame x (hmem x hx)).2, (hsame y (hmem y hy)).2]
  · rw [(hsame c (hmem c (ht.mem_nodes hc))).1]
    exact hroot c hc

/-- **In a run there is a heap**: of the nodes that are in. -/
theorem Built.isHeap (h : Built cmp m p key S) (hcmp : Orders cmp) : IsHeap cmp key m p S := by
  induction h with
  | empty m key =>
    exact .of_tree (t := .nil) rfl List.nodup_nil rfl trivial fun c hc => absurd hc (Option.not_mem_none c)
  | other _ hsame ih => exact ih.other hsame
  | insert _ hb hdepth hrun ih =>
    have hwp := ih.wp_skewHeapInsert hcmp hb hdepth
    have hheap := Act.wp_of_ok hwp hrun
    exact hheap
  | @remove m m' p p' key S b depth _ hb hdepth hrun ih =>
    have hkey : ∀ x ∈ S, key x = key x := fun _ _ => rfl
    have hwp := ih.wp_skewHeapRemove hcmp hb (.inl hkey) hdepth
    have hheap := Act.wp_of_ok hwp hrun
    exact hheap
  | removeRoot _ hb hkey hdepth hrun ih =>
    have hwp := ih.wp_skewHeapRemove hcmp hb (.inr ⟨rfl, hkey⟩) hdepth
    have hheap := Act.wp_of_ok hwp hrun
    exact hheap

/-- **The skew heap of a run** is a heap, and what either call returns is one again: of the old nodes and
the new one, or of the old nodes but the one removed.  When the root is removed, its key does not
matter. -/
theorem skewHeap_run (hcmp : Orders cmp) (h : Built cmp m p key S) :
    IsHeap cmp key m p S ∧
      (∀ b ∉ S, ∀ depth > S.card + 1, ∃ p' m',
        skewHeapInsert (compAt cmp key) depth p b m = .ok (p', m') ∧ IsHeap cmp key m' p' (insert b S)) ∧
      (∀ b ∈ S, ∀ depth > S.card, ∃ p' m',
        skewHeapRemove (compAt cmp key) depth p b m = .ok (p', m') ∧ IsHeap cmp key m' p' (S.erase b)) ∧
      ∀ b ∈ S, p = some b → ∀ key', (∀ x ∈ S, x ≠ b → key' x = key x) → ∀ depth > S.card, ∃ p' m',
        skewHeapRemove (compAt cmp key') depth p b m = .ok (p', m') ∧
          IsHeap cmp key' m' p' (S.erase b) := by
  have hheap := h.isHeap hcmp
  refine ⟨hheap, fun b hb depth hdepth => ?_, fun b hb depth hdepth => ?_,
    fun b hb hp key' hkey depth hdepth => ?_⟩
  · exact Act.wp_false_iff.mp (hheap.wp_skewHeapInsert hcmp hb hdepth)
  · have hkey : ∀ x ∈ S, key x = key x := fun _ _ => rfl
    exact Act.wp_false_iff.mp (hheap.wp_skewHeapRemove hcmp hb (.inl hkey) hdepth)
  · exact Act.wp_false_iff.mp (hheap.wp_skewHeapRemove hcmp hb (.inr ⟨hp, hkey⟩) hdepth)

end Runs

/-- The order of the integers. -/
def cmpInt (j k : ℤ) : ℤ := if j < k then -1 else if k < j then 1 else 0

theorem cmpInt_orders : Orders cmpInt := by
  refine ⟨fun j k => ?_, fun j k => ?_, fun i j k => ?_⟩ <;> unfold cmpInt <;> split_ifs <;> omega

/-- The node `5` goes into an empty heap, and out of it again. -/
theorem skewHeap_run_singleton : ∃ p m, Built (N := ℕ) cmpInt m p (fun n => (n : ℤ)) {5} ∧
    ∃ p' m', skewHeapRemove (compAt cmpInt fun n : ℕ => (n : ℤ)) 2 p 5 m = .ok (p', m') ∧
      IsHeap cmpInt (fun n : ℕ => (n : ℤ)) m' p' ∅ := by
  have hempty : Built cmpInt (fun _ => ⟨none, none, none⟩) none (fun n : ℕ => (n : ℤ)) ∅ := .empty _ _
  obtain ⟨-, hinsert, -⟩ := skewHeap_run cmpInt_orders hempty
  obtain ⟨p, m, hrun, -⟩ := hinsert 5 (by decide) 2 (by decide)
  have hfive := hempty.insert (by decide) (by decide) hrun
  obtain ⟨-, -, hremove, -⟩ := skewHeap_run cmpInt_orders hfive
  exact ⟨p, m, hfive, hremove 5 (by decide) 2 (by decide)⟩

end UCore.SkewHeap
