import UCore.Libs.Defs
import UCore.Machinery.Act
import UCore.Machinery.SkewTree

/-!
# Libs/SkewHeap — `libs/skew_heap.h`

The heap as the pointers store it, over any type of nodes.  A call is given the comparison, at the
keys that the nodes have when it is made, and a depth that bounds the recursion.

    skew_heap_insert    a ▸ merge a b          skew_heap_remove    b ▸ merge b->left b->right

`IsTree m p t` says that `p` points to the tree `t`, each child to its parent.
-/

namespace UCore

open SkewTree BinaryTree

/-- `skew_heap_entry_t`. -/
structure SkewHeapEntry (N : Type) where
  parent : Option N
  left : Option N
  right : Option N

namespace SkewHeap

variable {N : Type} [DecidableEq N]

/-- A call on the entries of the nodes. -/
abbrev Call (N α : Type) := Act (N → SkewHeapEntry N) Stop α

/-- Change the entry of one node. -/
def modifyEntry (m : N → SkewHeapEntry N) (x : N) (f : SkewHeapEntry N → SkewHeapEntry N) :
    N → SkewHeapEntry N :=
  Function.update m x (f (m x))

/-- `if (p) p->parent = q`. -/
def setParent (m : N → SkewHeapEntry N) (p q : Option N) : N → SkewHeapEntry N :=
  match p with
  | none => m
  | some c => modifyEntry m c fun e => { e with parent := q }

/-- `x->left = l; x->right = r; if (l) l->parent = x`. -/
def link (m : N → SkewHeapEntry N) (x : N) (l r : Option N) : N → SkewHeapEntry N :=
  setParent (modifyEntry m x fun e => { e with left := l, right := r }) l (some x)

/-- `skew_heap_init`. -/
def skewHeapInit (a : N) : Call N Unit := modify fun m => modifyEntry m a fun _ => ⟨none, none, none⟩

/-- `skew_heap_merge`. -/
def skewHeapMerge (comp : N → N → ℤ) : ℕ → Option N → Option N → Call N (Option N)
  | 0, _, _ => throw .spin
  | _ + 1, none, b => return b
  | _ + 1, some a, none => return some a
  | depth + 1, some a, some b => do
    if comp a b = -1 then
      let r := ((← get) a).left
      let l ← skewHeapMerge comp depth ((← get) a).right (some b)
      modify fun m => link m a l r
      return some a
    else
      let r := ((← get) b).left
      let l ← skewHeapMerge comp depth (some a) ((← get) b).right
      modify fun m => link m b l r
      return some b

/-- `skew_heap_insert`. -/
def skewHeapInsert (comp : N → N → ℤ) (depth : ℕ) (a : Option N) (b : N) : Call N (Option N) := do
  skewHeapInit b
  skewHeapMerge comp depth a (some b)

/-- `skew_heap_remove`. -/
def skewHeapRemove (comp : N → N → ℤ) (depth : ℕ) (a : Option N) (b : N) : Call N (Option N) := do
  let p := ((← get) b).parent
  let rep ← skewHeapMerge comp depth ((← get) b).left ((← get) b).right
  modify fun m => setParent m rep p
  match p with
  | some p => do
    if ((← get) p).left = some b then
      modify fun m => modifyEntry m p fun e => { e with left := rep }
    else
      modify fun m => modifyEntry m p fun e => { e with right := rep }
    return a
  | none => return rep

/-! ## The tree behind a pointer -/

/-- **`p` points to the tree `t`**, and each child points back to its parent. -/
def IsTree (m : N → SkewHeapEntry N) : Option N → BinaryTree N → Prop
  | p, .nil => p = none
  | p, .node x l r => p = some x ∧ IsTree m (m x).left l ∧ IsTree m (m x).right r ∧
    (∀ c ∈ (m x).left, (m c).parent = some x) ∧ ∀ c ∈ (m x).right, (m c).parent = some x

variable {m m' : N → SkewHeapEntry N} {comp : N → N → ℤ} {p q : Option N} {t a b l r : BinaryTree N}
  {x y c : N} {depth : ℕ}

omit [DecidableEq N] in
/-- A pointer to a tree is its root. -/
theorem IsTree.mem_nodes (h : IsTree m p t) (hc : c ∈ p) : c ∈ nodes t := by
  cases t with
  | nil => exact absurd (h ▸ hc) (Option.not_mem_none c)
  | node x l r =>
    obtain rfl : c = x := Option.mem_some_iff.mp (h.1 ▸ hc) |>.symm
    exact List.mem_cons_self

omit [DecidableEq N] in
/-- A tree is read off the entries of its nodes. -/
theorem IsTree.congr (h : IsTree m p t) (heq : ∀ y ∈ nodes t, m' y = m y) : IsTree m' p t := by
  induction t generalizing p with
  | nil => exact h
  | node x l r ihl ihr =>
    obtain ⟨rfl, hl, hr, hpl, hpr⟩ := h
    have hx : m' x = m x := heq x List.mem_cons_self
    refine ⟨rfl, ?_, ?_, ?_, ?_⟩
    · rw [hx]
      exact ihl hl fun y hy => heq y (by simp [hy])
    · rw [hx]
      exact ihr hr fun y hy => heq y (by simp [hy])
    · rw [hx]
      exact fun c hc => (heq c (by simp [hl.mem_nodes hc])).symm ▸ hpl c hc
    · rw [hx]
      exact fun c hc => (heq c (by simp [hr.mem_nodes hc])).symm ▸ hpr c hc

/-! ## Stores -/

theorem setParent_apply : setParent m p q y =
    if p = some y then { m y with parent := q } else m y := by
  cases p with
  | none => rfl
  | some c =>
    rw [setParent, modifyEntry, Function.update_apply]
    rcases eq_or_ne y c with rfl | hyc
    · rw [if_pos rfl, if_pos rfl]
    · rw [if_neg hyc, if_neg fun h => hyc (Option.some.inj h).symm]

theorem setParent_of_ne (h : p ≠ some y) : setParent m p q y = m y := by
  rw [setParent_apply, if_neg h]

/-- The parent of the root is nobody's business. -/
theorem IsTree.setParent (h : IsTree m p t) (hnd : (nodes t).Nodup) :
    IsTree (setParent m p q) p t := by
  cases t with
  | nil => exact h
  | node x l r =>
    obtain ⟨rfl, hl, hr, hpl, hpr⟩ := h
    obtain ⟨hx, -⟩ := List.nodup_cons.mp hnd
    have hother : ∀ y, y ≠ x → SkewHeap.setParent m (some x) q y = m y := fun y hy =>
      setParent_of_ne fun heq => hy (Option.some.inj heq).symm
    have hsub : ∀ y ∈ nodes l ++ nodes r, SkewHeap.setParent m (some x) q y = m y := fun y hy =>
      hother y (ne_of_mem_of_not_mem hy hx)
    have hself : SkewHeap.setParent m (some x) q x = { m x with parent := q } := by
      rw [setParent_apply, if_pos rfl]
    refine ⟨rfl, ?_, ?_, ?_, ?_⟩
    · rw [hself]
      exact hl.congr fun y hy => hsub y (List.mem_append_left _ hy)
    · rw [hself]
      exact hr.congr fun y hy => hsub y (List.mem_append_right _ hy)
    · rw [hself]
      exact fun c hc => (hsub c (List.mem_append_left _ (hl.mem_nodes hc))).symm ▸ hpl c hc
    · rw [hself]
      exact fun c hc => (hsub c (List.mem_append_right _ (hr.mem_nodes hc))).symm ▸ hpr c hc

theorem link_of_ne (hx : y ≠ x) (hp : p ≠ some y) : link m x p q y = m y := by
  rw [link, setParent_of_ne hp]
  exact Function.update_of_ne hx ..

/-- **A node gets two children**, the second of which knows it already. -/
theorem IsTree.link (ha : IsTree m p a) (hb : IsTree m q b) (hnd : (x :: (nodes a ++ nodes b)).Nodup)
    (hpar : ∀ c ∈ q, (m c).parent = some x) :
    IsTree (link m x p q) (some x) (.node x a b) ∧ (link m x p q x).parent = (m x).parent := by
  obtain ⟨hx, hnd⟩ := List.nodup_cons.mp hnd
  obtain ⟨hnda, -, hab⟩ := List.nodup_append.mp hnd
  have hxa : ∀ y ∈ nodes a, y ≠ x := fun y hy => ne_of_mem_of_not_mem (List.mem_append_left _ hy) hx
  have hpx : p ≠ some x := fun h => hxa x (ha.mem_nodes (Option.mem_def.mpr h)) rfl
  have hself : SkewHeap.link m x p q x = { m x with left := p, right := q } := by
    rw [SkewHeap.link, setParent_of_ne hpx]
    exact Function.update_self ..
  have hb' : ∀ y ∈ nodes b, SkewHeap.link m x p q y = m y := fun y hy => by
    refine link_of_ne (ne_of_mem_of_not_mem (List.mem_append_right _ hy) hx) fun h => ?_
    exact hab y (ha.mem_nodes (Option.mem_def.mpr h)) y hy rfl
  refine ⟨⟨rfl, ?_, ?_, ?_, ?_⟩, by rw [hself]⟩
  · rw [hself]
    refine IsTree.setParent (ha.congr fun y hy => ?_) hnda
    exact Function.update_of_ne (hxa y hy) ..
  · rw [hself]
    exact hb.congr hb'
  · rw [hself]
    intro c hc
    rw [SkewHeap.link, setParent_apply, if_pos (Option.mem_def.mp hc)]
  · rw [hself]
    exact fun c hc => (hb' c (hb.mem_nodes hc)).symm ▸ hpar c hc

/-! ## The calls -/

/-- `comp` says that the first node goes first. -/
def before (comp : N → N → ℤ) (x y : N) : Bool := comp x y = -1

/-- What a call leaves: the tree, with the nodes outside `S` and the root's own parent untouched. -/
structure Merged (m : N → SkewHeapEntry N) (S : List N) (t : BinaryTree N) (p : Option N)
    (m' : N → SkewHeapEntry N) : Prop where
  tree : IsTree m' p t
  other : ∀ y ∉ S, m' y = m y
  parent : ∀ c ∈ p, (m' c).parent = (m c).parent

theorem Merged.mono {S S' : List N} (h : Merged m S t p m') (hS : S ⊆ S') : Merged m S' t p m' :=
  ⟨h.tree, fun y hy => h.other y fun hyS => hy (hS hyS), h.parent⟩

/-- A merge below `x` is hung under it, and its other child changes sides. -/
theorem Merged.link {S : List N} (h : Merged m S t p m') (hperm : (nodes t).Perm S)
    (hl : IsTree m (m x).left l) (hpar : ∀ c ∈ (m x).left, (m c).parent = some x)
    (hnd : (x :: (S ++ nodes l)).Nodup) :
    Merged m (x :: S) (.node x t l) (some x) (link m' x p (m x).left) := by
  obtain ⟨hx, hndS⟩ := List.nodup_cons.mp hnd
  have hxS : x ∉ S := fun hxS => hx (List.mem_append_left _ hxS)
  have hl' : ∀ y ∈ nodes l, m' y = m y := fun y hy =>
    h.other y fun hyS => (List.nodup_append.mp hndS).2.2 y hyS y hy rfl
  have hndt : (x :: (nodes t ++ nodes l)).Nodup :=
    ((hperm.append_right _).cons x).nodup_iff.mpr hnd
  obtain ⟨ht, hp⟩ := h.tree.link (hl.congr hl') hndt fun c hc =>
    (hl' c (hl.mem_nodes hc)).symm ▸ hpar c hc
  refine ⟨ht, fun y hy => ?_, fun c hc => ?_⟩
  · obtain ⟨hyx, hyS⟩ := not_or.mp (fun h => hy (List.mem_cons.mpr h))
    have hpy : p ≠ some y := fun heq =>
      hyS (hperm.subset (h.tree.mem_nodes (Option.mem_def.mpr heq)))
    rw [link_of_ne hyx hpy, h.other y hyS]
  · obtain rfl : x = c := Option.mem_some_iff.mp hc
    rw [hp, h.other x hxS]

/-- **`skew_heap_merge`** merges the trees, with as many calls as they have nodes. -/
theorem wp_skewHeapMerge (ha : IsTree m p a) (hb : IsTree m q b) (hnd : (nodes a ++ nodes b).Nodup)
    (hdepth : a.numNodes + b.numNodes < depth) :
    Act.wp (skewHeapMerge comp depth p q)
      (fun p' m' => Merged m (nodes a ++ nodes b) (merge (before comp) a b) p' m' ∧
        (p' = p ∨ p' = q))
      (fun _ => False) m := by
  induction depth generalizing p q m a b with
  | zero => exact absurd hdepth (Nat.not_lt_zero _)
  | succ depth ih =>
    rcases a with _ | ⟨x, l, r⟩
    · obtain rfl : p = none := ha
      rw [merge_nil_left]
      exact ⟨⟨hb, fun _ _ => rfl, fun _ _ => rfl⟩, .inr rfl⟩
    rcases b with _ | ⟨y, l', r'⟩
    · obtain rfl : q = none := hb
      obtain rfl : p = some x := ha.1
      rw [merge_nil_right]
      exact ⟨⟨ha, fun _ _ => rfl, fun _ _ => rfl⟩, .inl rfl⟩
    have ha' := ha
    have hb' := hb
    obtain ⟨rfl, hl, hr, hpl, -⟩ := ha
    obtain ⟨rfl, hl', hr', hpl', -⟩ := hb
    simp only [numNodes] at hdepth
    rw [skewHeapMerge, Act.wp_ite]
    simp only [Act.wp_bind, Act.wp_get, Act.wp_modify, Act.wp_pure]
    refine ⟨fun hc => ?_, fun hc => ?_⟩
    · -- `x` goes first: the other tree is merged into its right child
      have hfirst : before comp x y = true := decide_eq_true hc
      have hnd' : (x :: ((nodes r ++ nodes (.node y l' r')) ++ nodes l)).Nodup :=
        ((perm_rotate _ _ _).symm.cons x).nodup_iff.mp hnd
      have hsub := (List.nodup_append.mp (List.nodup_cons.mp hnd').2).1
      refine Act.wp_mono (ih hr hb' hsub (by simp only [numNodes]; omega)) (fun p' m₁ h => ?_)
        fun _ => id
      rw [merge, if_pos hfirst]
      refine ⟨(h.1.link (nodes_merge _ _ _) hl hpl hnd').mono fun z hz => ?_, .inl trivial⟩
      simp only [nodes_node, List.mem_cons, List.mem_append] at hz ⊢
      tauto
    · -- `y` goes first
      have hfirst : ¬ before comp x y = true := fun h => hc (of_decide_eq_true h)
      have hnd' : (y :: ((nodes (.node x l r) ++ nodes r') ++ nodes l')).Nodup := by
        refine (List.perm_middle.trans (List.Perm.cons y ?_)).nodup_iff.mp hnd
        rw [List.append_assoc]
        exact List.perm_append_comm.append_left _
      have hsub := (List.nodup_append.mp (List.nodup_cons.mp hnd').2).1
      refine Act.wp_mono (ih ha' hr' hsub (by simp only [numNodes]; omega)) (fun p' m₁ h => ?_)
        fun _ => id
      rw [merge, if_neg hfirst]
      refine ⟨(h.1.link (nodes_merge _ _ _) hl' hpl' hnd').mono fun z hz => ?_, .inr trivial⟩
      simp only [nodes_node, List.mem_cons, List.mem_append] at hz ⊢
      tauto

/-- **`skew_heap_insert`** merges the new node in; the root has no parent. -/
theorem wp_skewHeapInsert (ht : IsTree m p t) (hroot : ∀ c ∈ p, (m c).parent = none)
    (hnd : (x :: nodes t).Nodup) (hdepth : t.numNodes + 1 < depth) :
    Act.wp (skewHeapInsert comp depth p x)
      (fun p' m' => IsTree m' p' (merge (before comp) t (.node x .nil .nil)) ∧
        (∀ c ∈ p', (m' c).parent = none) ∧ ∀ y ∉ x :: nodes t, m' y = m y)
      (fun _ => False) m := by
  obtain ⟨hx, hndt⟩ := List.nodup_cons.mp hnd
  rw [skewHeapInsert, Act.wp_bind, skewHeapInit, Act.wp_modify]
  have hinit : ∀ y, y ≠ x → modifyEntry m x (fun _ => ⟨none, none, none⟩) y = m y := fun y hy =>
    Function.update_of_ne hy ..
  have hself : modifyEntry m x (fun _ => ⟨none, none, none⟩) x = ⟨none, none, none⟩ :=
    Function.update_self ..
  have hnew : IsTree (modifyEntry m x fun _ => ⟨none, none, none⟩) (some x) (.node x .nil .nil) := by
    refine ⟨rfl, ?_, ?_, ?_, ?_⟩ <;> simp [hself, IsTree]
  have htx : ∀ y ∈ nodes t, y ≠ x := fun y hy => ne_of_mem_of_not_mem hy hx
  refine Act.wp_mono (wp_skewHeapMerge (ht.congr fun y hy => hinit y (htx y hy)) hnew
    (List.perm_append_singleton x _ |>.nodup_iff.mpr hnd) hdepth) (fun p' m' ⟨h, hp⟩ => ?_)
    fun _ => id
  refine ⟨h.tree, fun c hc => ?_, fun y hy => ?_⟩
  · rw [h.parent c hc]
    rcases hp with rfl | rfl
    · rw [hinit c (htx c (ht.mem_nodes hc))]
      exact hroot c hc
    · obtain rfl : x = c := Option.mem_some_iff.mp hc
      rw [hself]
  · obtain ⟨hyx, hyt⟩ := not_or.mp (fun h => hy (List.mem_cons.mpr h))
    rw [h.other y (by simp [hyx, hyt]), hinit y hyx]

/-- **`skew_heap_remove` of the root** merges its children; the root's own key is not looked at. -/
theorem wp_skewHeapRemove_root (ht : IsTree m (some x) (.node x l r))
    (hroot : (m x).parent = none) (hnd : (nodes l ++ nodes r).Nodup)
    (hdepth : l.numNodes + r.numNodes < depth) :
    Act.wp (skewHeapRemove comp depth p x)
      (fun p' m' => IsTree m' p' (merge (before comp) l r) ∧ (∀ c ∈ p', (m' c).parent = none) ∧
        ∀ y ∉ nodes l ++ nodes r, m' y = m y)
      (fun _ => False) m := by
  obtain ⟨-, hl, hr, -, -⟩ := ht
  simp only [skewHeapRemove, Act.wp_bind, Act.wp_get, Act.wp_modify]
  refine Act.wp_mono (wp_skewHeapMerge hl hr hnd hdepth) (fun p' m' hm' => ?_) fun _ => id
  have h := hm'.1
  rw [hroot]
  have hperm := nodes_merge (before comp) l r
  refine ⟨h.tree.setParent (hperm.nodup_iff.mpr hnd), fun c hc => ?_, fun y hy => ?_⟩
  · change (setParent m' p' none c).parent = none
    rw [setParent_apply, if_pos (Option.mem_def.mp hc)]
  · have hpy : p' ≠ some y := fun heq =>
      hy (hperm.subset (h.tree.mem_nodes (Option.mem_def.mpr heq)))
    exact (setParent_of_ne hpy).trans (h.other y hy)

end SkewHeap

end UCore
