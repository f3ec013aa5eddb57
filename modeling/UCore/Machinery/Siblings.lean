import UCore.Machinery.Thread

/-!
# Machinery/Siblings — lists with links back

    o ──▸ x₁ ⇄ x₂ ⇄ ⋯ ⇄ xₙ ──▸ none
    none ◂──┘

A list that hangs from `o` by `next`, and whose `prev` fields lead back to its first entry.  An entry is put in
front, and any entry is taken out by what its own two fields say.
-/

variable {α : Type*}

/-- The `prev` fields of some entries, the first of which comes after `b`. -/
def Back (prev : α → Option α) : Option α → List α → Prop
  | _, [] => True
  | b, x :: xs => prev x = b ∧ Back prev (some x) xs

/-- **A list with links back.** -/
structure Siblings (next prev : α → Option α) (o : Option α) (xs : List α) : Prop where
  thread : Thread next o xs
  back : Back prev none xs

variable {next next' prev prev' : α → Option α} {o b : Option α} {x y : α} {xs ys u v : List α}

namespace Back

theorem congr (h : Back prev b xs) (heq : ∀ x ∈ xs, prev' x = prev x) : Back prev' b xs := by
  induction xs generalizing b with
  | nil => trivial
  | cons x xs ih =>
    refine ⟨(heq x List.mem_cons_self).trans h.1, ih h.2 fun y hy => heq y (List.mem_cons_of_mem x hy)⟩

/-- What comes after a part of the list. -/
theorem of_append (h : Back prev b (u ++ v)) : Back prev (u.getLast?.or b) v := by
  induction u generalizing b with
  | nil => exact h
  | cons x u ih =>
    have := ih h.2
    rwa [List.getLast?_cons, show (some (u.getLast?.getD x)).or b = u.getLast?.or (some x) by
      cases u.getLast? <;> rfl]

theorem append (h : Back prev b u) (h' : Back prev (u.getLast?.or b) v) : Back prev b (u ++ v) := by
  induction u generalizing b with
  | nil => exact h'
  | cons x u ih =>
    refine ⟨h.1, ih h.2 ?_⟩
    rwa [List.getLast?_cons, show (some (u.getLast?.getD x)).or b = u.getLast?.or (some x) by
      cases u.getLast? <;> rfl] at h'

theorem left (h : Back prev b (u ++ v)) : Back prev b u := by
  induction u generalizing b with
  | nil => trivial
  | cons x u ih => exact ⟨h.1, ih h.2⟩

end Back

namespace Siblings

theorem nil : Siblings next prev none [] := ⟨rfl, trivial⟩

theorem nodup (h : Siblings next prev o xs) : xs.Nodup := h.thread.nodup

/-- A list reads the fields of its own entries only. -/
theorem congr (h : Siblings next prev o xs) (hn : ∀ x ∈ xs, next' x = next x) (hp : ∀ x ∈ xs, prev' x = prev x) :
    Siblings next' prev' o xs :=
  ⟨h.thread.congr hn, h.back.congr hp⟩

theorem head_eq (h : Siblings next prev o xs) : o = xs.head? := by
  cases xs with
  | nil => exact h.thread
  | cons x xs => exact h.thread.1

/-- What the fields of an entry in the list lead to. -/
theorem fields (h : Siblings next prev o (u ++ x :: v)) : next x = v.head? ∧ prev x = u.getLast? := by
  refine ⟨?_, ?_⟩
  · have hv := h.thread.suffix
    cases v with
    | nil => exact hv
    | cons y v => exact hv.1
  · have hback := h.back.of_append.1
    rwa [Option.or_none] at hback

end Siblings

/-! ## An entry in front -/

section Push

variable [DecidableEq α]

/-- The `prev` fields after `x` has been put in front of the list at `o`. -/
def pushPrev (prev : α → Option α) (x : α) : Option α → α → Option α
  | none => Function.update prev x none
  | some y => Function.update (Function.update prev x none) y (some x)

/-- **An entry is put in front.** -/
theorem Siblings.push (h : Siblings next prev o xs) (hx : x ∉ xs) :
    Siblings (Function.update next x o) (pushPrev prev x o) (some x) (x :: xs) := by
  refine ⟨h.thread.push hx, ?_⟩
  cases xs with
  | nil =>
    obtain rfl : o = none := h.thread
    exact ⟨Function.update_self .., trivial⟩
  | cons y ys =>
    obtain rfl : o = some y := h.thread.1
    have hxy : x ≠ y := fun heq => hx (heq ▸ List.mem_cons_self)
    have hnot : y ∉ ys := (List.nodup_cons.mp h.nodup).1
    refine ⟨?_, Function.update_self .., h.back.2.congr fun z hz => ?_⟩
    · rw [pushPrev, Function.update_of_ne hxy, Function.update_self]
    · have hzy : z ≠ y := fun heq => hnot (heq ▸ hz)
      have hzx : z ≠ x := fun heq => hx (heq ▸ List.mem_cons_of_mem y hz)
      rw [pushPrev, Function.update_of_ne hzy, Function.update_of_ne hzx]

/-- Other fields are as they were. -/
theorem Siblings.pushPrev_of_notMem (h : Siblings next prev o xs) (hyx : y ≠ x) (hy : y ∉ xs) :
    pushPrev prev x o y = prev y := by
  cases xs with
  | nil =>
    obtain rfl : o = none := h.thread
    exact Function.update_of_ne hyx ..
  | cons z zs =>
    obtain rfl : o = some z := h.thread.1
    have hyz : y ≠ z := fun heq => hy (heq ▸ List.mem_cons_self)
    rw [pushPrev, Function.update_of_ne hyz, Function.update_of_ne hyx]

end Push

/-! ## An entry taken out -/

section Drop

variable [DecidableEq α]

/-- The `prev` fields after `x` has been taken out… -/
def dropPrev (next prev : α → Option α) (x : α) : α → Option α :=
  match next x with
  | none => prev
  | some y => Function.update prev y (prev x)

/-- …the `next` fields… -/
def dropNext (next prev : α → Option α) (x : α) : α → Option α :=
  match prev x with
  | none => next
  | some z => Function.update next z (next x)

/-- …and where the list hangs. -/
def dropHead (next prev : α → Option α) (x : α) (o : Option α) : Option α :=
  match prev x with
  | none => next x
  | some _ => o

theorem dropPrev_of_none (h : next x = none) : dropPrev next prev x = prev := by rw [dropPrev, h]

theorem dropPrev_of_some (h : next x = some y) : dropPrev next prev x = Function.update prev y (prev x) := by
  rw [dropPrev, h]

theorem dropNext_of_none (h : prev x = none) : dropNext next prev x = next := by rw [dropNext, h]

theorem dropNext_of_some (h : prev x = some y) : dropNext next prev x = Function.update next y (next x) := by
  rw [dropNext, h]

omit [DecidableEq α] in
theorem dropHead_of_none (h : prev x = none) : dropHead next prev x o = next x := by rw [dropHead, h]

omit [DecidableEq α] in
theorem dropHead_of_some (h : prev x = some y) : dropHead next prev x o = o := by rw [dropHead, h]

/-- A thread goes on elsewhere from one of its entries. -/
theorem Thread.splice (h : Thread next o (u ++ x :: v)) {o' : Option α} {w : List α} (hw : Thread next o' w)
    (hx : x ∉ w) : Thread (Function.update next x o') o (u ++ x :: w) := by
  induction u generalizing o with
  | nil =>
    refine ⟨h.1, ?_⟩
    rw [Function.update_self]
    exact hw.congr fun y hy => Function.update_of_ne (ne_of_mem_of_not_mem hy hx) ..
  | cons y u ih =>
    have hne : y ≠ x := fun heq => (List.nodup_cons.mp h.nodup).1 (heq ▸ List.mem_append_right u List.mem_cons_self)
    refine ⟨h.1, ?_⟩
    rw [Function.update_of_ne hne]
    exact ih h.2

/-- **An entry is taken out**, by what its own fields say. -/
theorem Siblings.drop (h : Siblings next prev o (u ++ x :: v)) :
    Siblings (dropNext next prev x) (dropPrev next prev x) (dropHead next prev x o) (u ++ v) := by
  obtain ⟨hnext, hprev⟩ := h.fields
  have hnodup := h.nodup
  refine ⟨?_, ?_⟩
  · rcases List.eq_nil_or_concat' u with rfl | ⟨u, z, rfl⟩
    · rw [dropNext_of_none hprev, dropHead_of_none hprev]
      exact h.thread.suffix
    · rw [List.getLast?_concat] at hprev
      rw [dropNext_of_some hprev, dropHead_of_some hprev, List.append_assoc, List.singleton_append]
      rw [List.append_assoc, List.singleton_append] at h hnodup
      have hz : z ∉ x :: v := (List.nodup_cons.mp (List.nodup_append.mp hnodup).2.1).1
      exact h.thread.splice h.thread.suffix.2 fun hmem => hz (List.mem_cons_of_mem x hmem)
  · cases v with
    | nil =>
      rw [dropPrev_of_none hnext, List.append_nil]
      exact h.back.left
    | cons y v =>
      rw [List.head?_cons] at hnext
      rw [dropPrev_of_some hnext]
      have hy : y ∉ u := fun hmem => (List.nodup_append.mp hnodup).2.2 y hmem y (by simp) rfl
      have hyv : y ∉ v := (List.nodup_cons.mp (List.nodup_cons.mp (List.nodup_append.mp hnodup).2.1).2).1
      have hback : Back prev (some y) v := h.back.of_append.2.2
      refine Back.append (h.back.left.congr fun z hz => Function.update_of_ne (ne_of_mem_of_not_mem hz hy) ..) ⟨?_, ?_⟩
      · rw [Function.update_self, hprev, Option.or_none]
      · exact hback.congr fun z hz => Function.update_of_ne (ne_of_mem_of_not_mem hz hyv) ..

/-- Other fields are as they were. -/
theorem Siblings.dropNext_of_notMem (h : Siblings next prev o (u ++ x :: v)) (hy : y ∉ u) :
    dropNext next prev x y = next y := by
  cases hp : prev x with
  | none => rw [dropNext_of_none hp]
  | some z =>
    have hz : z ∈ u := List.mem_of_getLast? (h.fields.2.symm.trans hp)
    rw [dropNext_of_some hp, Function.update_of_ne (ne_of_mem_of_not_mem hz hy).symm]

theorem Siblings.dropPrev_of_notMem (h : Siblings next prev o (u ++ x :: v)) (hy : y ∉ v) :
    dropPrev next prev x y = prev y := by
  cases hn : next x with
  | none => rw [dropPrev_of_none hn]
  | some z =>
    have hz : z ∈ v := List.mem_of_head? (h.fields.1.symm.trans hn)
    rw [dropPrev_of_some hn, Function.update_of_ne (ne_of_mem_of_not_mem hz hy).symm]

end Drop

/-! ## Many lists

Lists with links back that share the two fields, each hanging from a head of its own. -/

/-- **A brood**: the lists at the heads in `P`, no entry of which is on two of them. -/
structure Brood {β : Type*} (next prev : α → Option α) (head : β → Option α) (P : β → Prop) (kids : β → List α) :
    Prop where
  siblings : ∀ b, P b → Siblings next prev (head b) (kids b)
  disjoint : ∀ b b' x, x ∈ kids b → x ∈ kids b' → b = b'

namespace Brood

variable {β : Type*} [DecidableEq α] [DecidableEq β] {head : β → Option α} {P : β → Prop} {kids : β → List α}
  {b c : β}

/-- **A new entry in front of one of the lists.** -/
theorem push (h : Brood next prev head P kids) (hb : P b) (hx : ∀ c, x ∉ kids c) :
    Brood (Function.update next x (head b)) (pushPrev prev x (head b)) (Function.update head b (some x)) P
      (Function.update kids b (x :: kids b)) := by
  have hlist := h.siblings b hb
  refine ⟨fun c hc => ?_, fun c c' y hy hy' => ?_⟩
  · rcases eq_or_ne c b with rfl | hcb
    · rw [Function.update_self, Function.update_self]
      exact hlist.push (hx c)
    · rw [Function.update_of_ne hcb, Function.update_of_ne hcb]
      refine (h.siblings c hc).congr (fun y hy => ?_) fun y hy => ?_
      · exact Function.update_of_ne (ne_of_mem_of_not_mem hy (hx c)) ..
      · exact hlist.pushPrev_of_notMem (ne_of_mem_of_not_mem hy (hx c)) fun hyb => hcb (h.disjoint c b y hy hyb)
  · have hold : ∀ c, y ∈ Function.update kids b (x :: kids b) c → y = x ∧ c = b ∨ y ∈ kids c := fun c hy => by
      rcases eq_or_ne c b with rfl | hcb
      · rw [Function.update_self] at hy
        exact (List.mem_cons.mp hy).imp_left fun hyx => ⟨hyx, rfl⟩
      · rw [Function.update_of_ne hcb] at hy
        exact .inr hy
    rcases hold c hy with ⟨rfl, rfl⟩ | hyc <;> rcases hold c' hy' with ⟨hyx, rfl⟩ | hyc'
    · rfl
    · exact absurd hyc' (hx c')
    · exact absurd (hyx ▸ hyc) (hx c)
    · exact h.disjoint c c' y hyc hyc'

/-- **An entry taken out of its list.** -/
theorem drop (h : Brood next prev head P kids) (hb : P b) (hkids : kids b = u ++ x :: v) :
    Brood (dropNext next prev x) (dropPrev next prev x) (Function.update head b (dropHead next prev x (head b))) P
      (Function.update kids b (u ++ v)) := by
  have hlist := h.siblings b hb
  rw [hkids] at hlist
  have hsub : ∀ y, y ∈ u ∨ y ∈ v → y ∈ kids b := fun y hy => by
    rw [hkids]
    simp only [List.mem_append, List.mem_cons]
    tauto
  refine ⟨fun c hc => ?_, fun c c' y hy hy' => ?_⟩
  · rcases eq_or_ne c b with rfl | hcb
    · rw [Function.update_self, Function.update_self]
      exact hlist.drop
    · rw [Function.update_of_ne hcb, Function.update_of_ne hcb]
      refine (h.siblings c hc).congr (fun y hy => ?_) fun y hy => ?_
      · exact hlist.dropNext_of_notMem fun hyu => hcb (h.disjoint c b y hy (hsub y (.inl hyu)))
      · exact hlist.dropPrev_of_notMem fun hyv => hcb (h.disjoint c b y hy (hsub y (.inr hyv)))
  · have hold : ∀ c, y ∈ Function.update kids b (u ++ v) c → y ∈ kids c := fun c hy => by
      rcases eq_or_ne c b with rfl | hcb
      · rw [Function.update_self] at hy
        exact hsub y (List.mem_append.mp hy)
      · rwa [Function.update_of_ne hcb] at hy
    exact h.disjoint c c' y (hold c hy) (hold c' hy')

omit [DecidableEq α] [DecidableEq β] in
/-- Fewer lists, with the same heads. -/
theorem mono {P' : β → Prop} {head' : β → Option α} {kids' : β → List α} (h : Brood next prev head P kids)
    (hP : ∀ b, P' b → P b ∧ head' b = head b ∧ kids' b = kids b) (hkids : ∀ b x, x ∈ kids' b → x ∈ kids b) :
    Brood next prev head' P' kids' := by
  refine ⟨fun b hb => ?_, fun b c x hx hx' => h.disjoint b c x (hkids b x hx) (hkids c x hx')⟩
  obtain ⟨hb, hhead, hsame⟩ := hP b hb
  rw [hhead, hsame]
  exact h.siblings b hb

end Brood
