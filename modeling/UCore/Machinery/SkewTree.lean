import Mathlib.Data.Tree.Basic
import Mathlib.Tactic

/-!
# Machinery/SkewTree — skew heaps as trees

    merge (x ⟨l, r⟩) t  =  x ⟨merge r t, l⟩          if x goes first

Merging walks down the right spines and swaps the children on the way back.  It keeps the nodes, and
it keeps heap order for every order that the comparison decides on the nodes of the two trees; how
the comparison behaves elsewhere does not matter.
-/

namespace SkewTree

open BinaryTree

variable {N : Type}

/-- The nodes of a tree, the root first. -/
def nodes : BinaryTree N → List N
  | .nil => []
  | .node x l r => x :: (nodes l ++ nodes r)

/-- **Merging** two skew heaps; `first x y` says that the root `x` goes before the root `y`. -/
def merge (first : N → N → Bool) : BinaryTree N → BinaryTree N → BinaryTree N
  | .nil, b => b
  | .node x l r, .nil => .node x l r
  | .node x l r, .node y l' r' =>
    if first x y then .node x (merge first r (.node y l' r')) l
    else .node y (merge first (.node x l r) r') l'
termination_by a b => a.numNodes + b.numNodes

/-- **Heap order**: no node comes after one below it. -/
def Heap (le : N → N → Prop) : BinaryTree N → Prop
  | .nil => True
  | .node x l r => (∀ y ∈ nodes l ++ nodes r, le x y) ∧ Heap le l ∧ Heap le r

variable {first : N → N → Bool} {le : N → N → Prop} {a b l r : BinaryTree N} {x y : N}

@[simp] theorem nodes_nil : nodes (.nil : BinaryTree N) = [] := rfl

@[simp] theorem nodes_node : nodes (.node x l r) = x :: (nodes l ++ nodes r) := rfl

@[simp] theorem merge_nil_left : merge first .nil b = b := by rw [merge]

@[simp] theorem merge_nil_right : merge first a .nil = a := by
  cases a <;> rw [merge]

@[simp] theorem length_nodes (t : BinaryTree N) : (nodes t).length = t.numNodes := by
  induction t with
  | nil => rfl
  | node x l r hl hr => rw [nodes, List.length_cons, List.length_append, hl, hr, numNodes]

theorem perm_rotate (l r b : List N) : ((r ++ b) ++ l).Perm ((l ++ r) ++ b) := by
  rw [List.append_assoc l]
  exact List.perm_append_comm

/-- **Merging keeps the nodes.** -/
theorem nodes_merge (first : N → N → Bool) (a b : BinaryTree N) :
    (nodes (merge first a b)).Perm (nodes a ++ nodes b) := by
  fun_induction merge first a b with
  | case1 b => exact .refl _
  | case2 x l r => simp
  | case3 x l r y l' r' h ih =>
    exact ((ih.append_right _).trans (perm_rotate _ _ _)).cons x
  | case4 x l r y l' r' h ih =>
    refine ((ih.append_right _).cons y).trans ?_
    refine (List.Perm.cons y ?_).trans List.perm_middle.symm
    rw [List.append_assoc]
    exact List.perm_append_comm.append_left _

theorem mem_merge : x ∈ nodes (merge first a b) ↔ x ∈ nodes a ∨ x ∈ nodes b := by
  rw [(nodes_merge first a b).mem_iff, List.mem_append]

/-- **Merging keeps heap order**, of any transitive order that the comparison decides on the nodes. -/
theorem heap_merge (htrans : ∀ x y z, le x y → le y z → le x z) (ha : Heap le a) (hb : Heap le b)
    (hfirst : ∀ x ∈ nodes a, ∀ y ∈ nodes b, if first x y then le x y else le y x) :
    Heap le (merge first a b) := by
  fun_induction merge first a b with
  | case1 b => exact hb
  | case2 x l r => exact ha
  | case3 x l r y l' r' h ih =>
    obtain ⟨hx, hl, hr⟩ := ha
    have hxy : le x y := by
      have := hfirst x List.mem_cons_self y List.mem_cons_self
      rwa [if_pos h] at this
    refine ⟨fun z hz => ?_, ih hr hb fun u hu => hfirst u (by simp [hu]), hl⟩
    rcases List.mem_append.mp hz with hz | hz
    · rcases mem_merge.mp hz with hz | hz
      · exact hx z (List.mem_append_right _ hz)
      · rcases List.mem_cons.mp hz with rfl | hz
        · exact hxy
        · exact htrans _ _ _ hxy (hb.1 z hz)
    · exact hx z (List.mem_append_left _ hz)
  | case4 x l r y l' r' h ih =>
    obtain ⟨hy, hl, hr⟩ := hb
    have hyx : le y x := by
      have := hfirst x List.mem_cons_self y List.mem_cons_self
      rwa [if_neg h] at this
    refine ⟨fun z hz => ?_, ih ha hr fun u hu v hv => hfirst u hu v (by simp [hv]), hl⟩
    rcases List.mem_append.mp hz with hz | hz
    · rcases mem_merge.mp hz with hz | hz
      · rcases List.mem_cons.mp hz with rfl | hz
        · exact hyx
        · exact htrans _ _ _ hyx (ha.1 z hz)
      · exact hy z (List.mem_append_right _ hz)
    · exact hy z (List.mem_append_left _ hz)

/-- The order of a heap may change on other nodes. -/
theorem Heap.congr {le' : N → N → Prop} (h : Heap le a)
    (heq : ∀ x ∈ nodes a, ∀ y ∈ nodes a, le x y → le' x y) : Heap le' a := by
  induction a with
  | nil => trivial
  | node x l r hl hr =>
    refine ⟨fun y hy => heq x List.mem_cons_self y (List.mem_cons_of_mem x hy) (h.1 y hy),
      hl h.2.1 fun u hu v hv => heq u (by simp [hu]) v (by simp [hv]),
      hr h.2.2 fun u hu v hv => heq u (by simp [hu]) v (by simp [hv])⟩

/-! ## Taking a node out -/

section Remove

variable [DecidableEq N]

/-- **A node is taken out**: its children are merged in its place. -/
def remove (first : N → N → Bool) (x : N) : BinaryTree N → BinaryTree N
  | .nil => .nil
  | .node y l r => if y = x then merge first l r else .node y (remove first x l) (remove first x r)

theorem remove_of_notMem (h : x ∉ nodes a) : remove first x a = a := by
  induction a with
  | nil => rfl
  | node y l r hl hr =>
    rw [nodes_node, List.mem_cons, List.mem_append, not_or, not_or] at h
    rw [remove, if_neg (Ne.symm h.1), hl h.2.1, hr h.2.2]

/-- The nodes are the others. -/
theorem nodes_remove (h : x ∈ nodes a) (hnd : (nodes a).Nodup) :
    (x :: nodes (remove first x a)).Perm (nodes a) := by
  induction a with
  | nil => exact absurd h List.not_mem_nil
  | node y l r hl hr =>
    obtain ⟨hy, hndlr⟩ := List.nodup_cons.mp hnd
    obtain ⟨hndl, hndr, hlr⟩ := List.nodup_append.mp hndlr
    rw [remove]
    split
    · next heq =>
      subst heq
      exact (nodes_merge first l r).cons y
    · next hne =>
      have hside := (List.mem_cons.mp h).resolve_left (Ne.symm hne)
      refine (List.Perm.swap ..).trans (List.Perm.cons y ?_)
      rcases List.mem_append.mp hside with hxl | hxr
      · have hxr : x ∉ nodes r := fun hxr => hlr x hxl x hxr rfl
        rw [remove_of_notMem hxr]
        exact (hl hxl hndl).append_right _
      · have hxl : x ∉ nodes l := fun hxl => hlr x hxl x hxr rfl
        rw [remove_of_notMem hxl]
        exact List.perm_middle.symm.trans ((hr hxr hndr).append_left _)

theorem mem_of_mem_remove (h : y ∈ nodes (remove first x a)) : y ∈ nodes a := by
  induction a with
  | nil => exact h
  | node z l r hl hr =>
    rw [remove] at h
    split at h
    · exact List.mem_cons_of_mem z (List.mem_append.mpr (mem_merge.mp h))
    · rw [nodes_node, List.mem_cons, List.mem_append] at h ⊢
      exact h.imp_right (Or.imp hl hr)

/-- **Heap order is kept.** -/
theorem heap_remove (htrans : ∀ x y z, le x y → le y z → le x z) (ha : Heap le a)
    (hfirst : ∀ x ∈ nodes a, ∀ y ∈ nodes a, if first x y then le x y else le y x) :
    Heap le (remove first x a) := by
  induction a with
  | nil => trivial
  | node y l r hl hr =>
    obtain ⟨hy, hhl, hhr⟩ := ha
    rw [remove]
    split
    · exact heap_merge htrans hhl hhr fun u hu v hv => hfirst u (by simp [hu]) v (by simp [hv])
    · refine ⟨fun z hz => hy z ?_, hl hhl fun u hu v hv => hfirst u (by simp [hu]) v (by simp [hv]),
        hr hhr fun u hu v hv => hfirst u (by simp [hu]) v (by simp [hv])⟩
      rw [List.mem_append] at hz ⊢
      exact hz.imp mem_of_mem_remove mem_of_mem_remove

end Remove

end SkewTree
