import UCore.Process.LoadIcode
import UCore.Process.SegmentRun

/-!
# Process/ArgStack — the arguments on the stack

    sp      a1 = sp + 8                                            USTACKTOP
    │ argc │ argv[0] … argv[argc - 1] │ 0 │ ≤ 7 │ string 0 │ string 1 │ … │

The strings are copied from the last to the first, each below the one before; then `argv`, its null
pointer, and `argc` below them.  Each copy is at addresses of its own, so what one has stored the next
ones leave there.
-/

namespace UCore.Exec

open Vmm Paging

/-- The bytes that strings take, with their null bytes. -/
def total (args : List (List UInt8)) : ℕ := (args.map fun arg => arg.length + 1).sum

/-- The addresses of strings that end at `top`. -/
def addresses (top : ℕ) : List (List UInt8) → List ℕ
  | [] => []
  | arg :: args => (top - total (arg :: args)) :: addresses top args

/-- A string, with its null byte, is in user memory. -/
def StringAt (s : Phys) (pgdir ptr : ℕ) (arg : List UInt8) : Prop :=
  ∀ j ≤ arg.length, (view s pgdir (ptr + j)).map Prod.fst = some (cstring arg j)

/-- Strings that end at `top` are in user memory, one after the other. -/
def StringsAt (s : Phys) (pgdir top : ℕ) : List (List UInt8) → Prop
  | [] => True
  | arg :: args => StringAt s pgdir (top - total (arg :: args)) arg ∧ StringsAt s pgdir top args

/-- Words are in user memory, one after the other. -/
def WordsAt (s : Phys) (pgdir a : ℕ) (ws : List ℕ) : Prop :=
  ∀ j < 8 * ws.length, (view s pgdir (a + j)).map Prod.fst = some (wordBytes ws j)

variable {pmm : Pmm} {fuel pgdir dst len top a b n : ℕ} {src : ℕ → UInt8} {s s' : Phys}
  {t t' : AddrSpace} {arg : List UInt8} {args done : List (List UInt8)} {ws : List ℕ}

theorem total_cons : total (arg :: args) = arg.length + 1 + total args := by
  rw [total, List.map_cons, List.sum_cons, ← total]

theorem length_addresses (top : ℕ) (args : List (List UInt8)) :
    (addresses top args).length = args.length := by
  induction args with
  | nil => rfl
  | cons arg args ih => rw [addresses, List.length_cons, List.length_cons, ih]

/-! ## What a later copy leaves -/

theorem StringAt.congr (h : StringAt s pgdir a arg)
    (hsame : ∀ j ≤ arg.length, view s' pgdir (a + j) = view s pgdir (a + j)) : StringAt s' pgdir a arg :=
  fun j hj => (congrArg _ (hsame j hj)).trans (h j hj)

theorem StringsAt.congr (h : StringsAt s pgdir top args) (hfit : total args ≤ top)
    (hsame : ∀ x, top - total args ≤ x → x < top → view s' pgdir x = view s pgdir x) :
    StringsAt s' pgdir top args := by
  induction args with
  | nil => exact trivial
  | cons arg args ih =>
    rw [total_cons] at hfit hsame
    refine ⟨h.1.congr fun j hj => hsame _ ?_ ?_, ih h.2 (by omega) fun x hx hx' => hsame x (by omega) hx'⟩
    · rw [total_cons]
      omega
    · rw [total_cons]
      omega

theorem WordsAt.congr (h : WordsAt s pgdir a ws)
    (hsame : ∀ j < 8 * ws.length, view s' pgdir (a + j) = view s pgdir (a + j)) : WordsAt s' pgdir a ws :=
  fun j hj => (congrArg _ (hsame j hj)).trans (h j hj)

/-- **`copy_to_user`** stores at user addresses, where it stores. -/
theorem wp_copyToUser (ht : UserTree pmm t.phys pgdir) (hdst : dst < 2 ^ 64) (hlen : len < 2 ^ 64) :
    Act.wp (copyToUser fuel pgdir dst src len) (fun r t' => r = true → dst + len ≤ USERTOP ∧
      Stored pmm pgdir dst len src t.phys t'.phys ∧ t'.phys.starved = t.phys.starved)
      (fun _ => True) t := by
  have hcheck : ∀ mm : Mm, Act.wp (userMemCheck fuel dst len true)
      (fun r _ => r = true → dst + len ≤ USERTOP) (fun _ => True) (some mm) := fun mm => by
    rw [userMemCheck, Act.wp_bind, Act.wp_get, Act.wp_ite]
    refine ⟨fun huser => ?_, fun _ hno => (by cases hno)⟩
    have hle := ((userAccess_iff hdst hlen).mp huser).2.2
    rw [Act.wp]
    split
    · exact fun _ => hle
    · exact trivial
  rw [copyToUser, Act.wp_bind, wp_onMm]
  have hrun := hcheck t.mm
  rw [Act.wp] at hrun ⊢
  cases hr : userMemCheck fuel dst len true (some t.mm) with
  | error e => exact trivial
  | ok r =>
    rw [hr] at hrun
    change Act.wp (if r.1 = true then _ else _) _ _ _
    rw [Act.wp_ite]
    refine ⟨fun hpass => ?_, fun _ hno => (by cases hno)⟩
    rw [Act.wp_bind, wp_onPhys]
    exact Act.wp_mono (wp_memcpyUser ht ((hrun hpass).trans USERTOP_le)) (fun _ s' hs' _ => ⟨hrun hpass, hs'.1, hs'.2⟩)
      fun _ => id

/-! ## The strings -/

/-- **What has been stored in a part of the stack**: below `lo` the process sees what it did. -/
structure Below (pmm : Pmm) (pgdir lo : ℕ) (s s' : Phys) : Prop where
  tree : UserTree pmm s' pgdir
  seen : ∀ x, x < lo → view s' pgdir x = view s pgdir x
  starved : s'.starved = s.starved

theorem Below.trans {lo lo' : ℕ} {s'' : Phys} (h : Below pmm pgdir lo s s') (h' : Below pmm pgdir lo' s' s'')
    (hle : lo' ≤ lo) : Below pmm pgdir lo' s s'' :=
  ⟨h'.tree, fun x hx => (h'.seen x hx).trans (h.seen x (hx.trans_le hle)), h'.starved.trans h.starved⟩

/-- **The loop over the strings**: `args` are still to be copied, from the last on, and `done` have
been. -/
theorem wp_copyStrings (ht : UserTree pmm t.phys pgdir) (hfit : total args + total done ≤ USERTOP)
    (hdone : StringsAt t.phys pgdir USERTOP done) :
    Act.wp (copyStrings fuel pgdir args (USERTOP - total done) (addresses USERTOP done))
      (fun r t' => ∀ top uargv, r = some (top, uargv) →
        top = USERTOP - total (args.reverse ++ done) ∧
          uargv = addresses USERTOP (args.reverse ++ done) ∧
          StringsAt t'.phys pgdir USERTOP (args.reverse ++ done) ∧
          Below pmm pgdir top t.phys t'.phys) (fun _ => True) t := by
  have hut : USERTOP = 2 ^ 31 := rfl
  have hlow : LOWTOP = 511 * 2 ^ 30 := rfl
  induction args generalizing t done with
  | nil =>
    intro top uargv heq
    obtain ⟨rfl, rfl⟩ := Prod.mk.inj (Option.some.inj heq)
    exact ⟨rfl, rfl, hdone, ht, fun _ _ => rfl, rfl⟩
  | cons arg args ih =>
    rw [total_cons] at hfit
    have htop : sub64 (USERTOP - total done) (arg.length + 1) = USERTOP - total (arg :: done) := by
      rw [sub64_of_le (by omega) (by omega), total_cons]
      omega
    rw [copyStrings, htop, Act.wp_bind]
    refine Act.wp_mono (wp_copyToUser ht (by omega) (by omega)) (fun r t₁ h₁ => ?_) fun _ => id
    rw [Act.wp_ite]
    refine ⟨fun hr => ?_, fun _ _ _ hno => (nomatch hno)⟩
    obtain ⟨-, hst, hstarved⟩ := h₁ hr
    have hstrings : StringsAt t₁.phys pgdir USERTOP (arg :: done) := by
      refine ⟨fun j hj => ?_, hdone.congr (by omega) fun x hx hx' => hst.frame x (hx'.trans_le USERTOP_le) (.inr ?_)⟩
      · obtain ⟨perm, hv⟩ := hst.value j (by omega)
        rw [hv, Option.map_some]
      · rw [total_cons]
        omega
    have hbelow : Below pmm pgdir (USERTOP - total (arg :: done)) t.phys t₁.phys :=
      ⟨hst.tree, fun x hx => hst.frame x (by omega) (.inl hx), hstarved⟩
    have hnext : addresses USERTOP (arg :: done) =
      (USERTOP - total (arg :: done)) :: addresses USERTOP done := rfl
    rw [← hnext]
    have hfit' : total args + total (arg :: done) ≤ USERTOP := by
      rw [total_cons]
      omega
    refine Act.wp_mono (ih hst.tree hfit' hstrings) (fun r t₂ h₂ top uargv heq => ?_) fun _ => id
    obtain ⟨htop', huargv, hstr, hb⟩ := h₂ top uargv heq
    rw [List.reverse_cons, List.append_assoc, List.singleton_append]
    refine ⟨htop', huargv, hstr, hbelow.trans hb ?_⟩
    have hle : total (arg :: done) ≤ total (args.reverse ++ arg :: done) := by
      rw [total, total, List.map_append, List.sum_append]
      exact Nat.le_add_left ..
    omega

/-! ## `argv` and `argc` -/

/-- **The arguments on the stack**: the strings below `USTACKTOP`, `argv` with its null pointer at
`argvBase`, and `argc` below it. -/
structure ArgsAt (s : Phys) (pgdir argvBase : ℕ) (args : List (List UInt8)) : Prop where
  strings : StringsAt s pgdir USERTOP args
  argv : WordsAt s pgdir argvBase (addresses USERTOP args)
  null : WordsAt s pgdir (argvBase + 8 * args.length) [0]
  argc : WordsAt s pgdir (argvBase - 8) [args.length]

/-- Where `argv` is. -/
def argvAt (args : List (List UInt8)) : ℕ :=
  roundDown (USERTOP - total args) 8 - (args.length + 1) * 8

theorem wordsAt_of_stored (h : Stored pmm pgdir dst n (wordBytes ws) s s') (hn : n = 8 * ws.length) :
    WordsAt s' pgdir dst ws := fun j hj => by
  obtain ⟨perm, hv⟩ := h.value j (by omega)
  rw [hv, Option.map_some]

theorem wp_copyArgv (ht : UserTree pmm t.phys pgdir)
    (hfit : total args + 8 * (args.length + 3) ≤ USERTOP)
    (hstrings : StringsAt t.phys pgdir USERTOP args) :
    Act.wp (copyArgv fuel pgdir args.length (USERTOP - total args) (addresses USERTOP args))
      (fun r t' => ∀ argvBase sp, r = some (argvBase, sp) → argvBase = argvAt args ∧
        sp = argvAt args - 8 ∧ ArgsAt t'.phys pgdir (argvAt args) args ∧
          Below pmm pgdir (argvAt args - 8) t.phys t'.phys) (fun _ => True) t := by
  have hut : USERTOP = 2 ^ 31 := rfl
  have hlow : LOWTOP = 511 * 2 ^ 30 := rfl
  have hround := roundDown_le (USERTOP - total args) 8
  have hround' : USERTOP - total args < roundDown (USERTOP - total args) 8 + 8 :=
    lt_roundDown_add (by decide)
  have hbase : sub64 (roundDown (USERTOP - total args) 8) ((args.length + 1) * 8) = argvAt args :=
    sub64_of_le (by omega) (by omega)
  have hargv : argvAt args + (args.length + 1) * 8 ≤ USERTOP - total args := by
    rw [argvAt]
    omega
  have hlow' : 8 ≤ argvAt args := by
    rw [argvAt]
    omega
  have hnull : u64 (argvAt args + args.length * 8) = argvAt args + 8 * args.length := by
    rw [u64_of_lt (by omega), Nat.mul_comm]
  have hsp : sub64 (argvAt args) 8 = argvAt args - 8 := sub64_of_le hlow' (by omega)
  rw [copyArgv]
  dsimp only
  rw [hbase, hnull, hsp, Act.wp_bind]
  refine Act.wp_mono (wp_copyToUser ht (by omega) (by omega)) (fun r₁ t₁ h₁ => ?_) fun _ => id
  rw [Act.wp_ite]
  refine ⟨fun hr₁ => ?_, fun _ _ _ hno => (nomatch hno)⟩
  obtain ⟨-, hst₁, hs₁⟩ := h₁ hr₁
  rw [Act.wp_bind]
  refine Act.wp_mono (wp_copyToUser hst₁.tree (by omega) (by omega)) (fun r₂ t₂ h₂ => ?_) fun _ => id
  rw [Act.wp_ite]
  refine ⟨fun hr₂ => ?_, fun _ _ _ hno => (nomatch hno)⟩
  obtain ⟨-, hst₂, hs₂⟩ := h₂ hr₂
  rw [Act.wp_bind]
  refine Act.wp_mono (wp_copyToUser hst₂.tree (by omega) (by omega)) (fun r₃ t₃ h₃ => ?_) fun _ => id
  rw [Act.wp_ite]
  refine ⟨fun hr₃ argvBase sp heq => ?_, fun _ _ _ hno => (nomatch hno)⟩
  obtain ⟨-, hst₃, hs₃⟩ := h₃ hr₃
  obtain ⟨rfl, rfl⟩ := Prod.mk.inj (Option.some.inj heq)
  have hlen := length_addresses USERTOP args
  -- the three stores are apart from each other, and below the strings
  refine ⟨rfl, rfl, ⟨?_, ?_, ?_, ?_⟩, hst₃.tree, fun x hx => ?_, hs₃.trans (hs₂.trans hs₁)⟩
  · refine hstrings.congr (by omega) fun x hx hx' => ?_
    rw [hst₃.frame x (by omega) (by omega), hst₂.frame x (by omega) (by omega),
      hst₁.frame x (by omega) (by omega)]
  · refine (wordsAt_of_stored hst₁ (by omega)).congr fun j hj => ?_
    rw [hst₃.frame _ (by omega) (by omega), hst₂.frame _ (by omega) (by omega)]
  · refine (wordsAt_of_stored hst₂ rfl).congr fun j hj => ?_
    have hj : j < 8 := hj
    rw [hst₃.frame _ (by omega) (by omega)]
  · exact wordsAt_of_stored hst₃ rfl
  · rw [hst₃.frame x (by omega) (by omega), hst₂.frame x (by omega) (by omega),
      hst₁.frame x (by omega) (by omega)]

/-- **The arguments are copied**, if the copies succeed. -/
theorem wp_copyArgs (ht : UserTree pmm t.phys pgdir)
    (hfit : total args + 8 * (args.length + 3) ≤ USERTOP) :
    Act.wp (copyArgs fuel pgdir args) (fun r t' => ∀ argvBase sp, r = some (argvBase, sp) →
      argvBase = argvAt args ∧ sp = argvAt args - 8 ∧ ArgsAt t'.phys pgdir (argvAt args) args ∧
        Below pmm pgdir (argvAt args - 8) t.phys t'.phys) (fun _ => True) t := by
  have htotal : total args.reverse = total args := by
    rw [total, total, List.map_reverse, List.sum_reverse]
  have hnil : total [] = 0 := rfl
  have hfit' : total args.reverse + total [] ≤ USERTOP := by omega
  rw [copyArgs, Act.wp_bind]
  have hnone : StringsAt t.phys pgdir USERTOP [] := trivial
  refine Act.wp_mono (wp_copyStrings ht hfit' hnone) (fun r t₁ h₁ => ?_) fun _ => id
  match r, h₁ with
  | none, _ => exact fun _ _ hno => (nomatch hno)
  | some (stacktop, uargv), h₁ =>
    obtain ⟨htop, huargv, hstr, hb⟩ := h₁ stacktop uargv rfl
    rw [List.reverse_reverse, List.append_nil] at htop huargv hstr
    subst htop huargv
    refine Act.wp_mono (wp_copyArgv hb.tree hfit hstr) (fun r t₂ h₂ argvBase sp heq => ?_) fun _ => id
    obtain ⟨hbase, hsp, hargs, hb'⟩ := h₂ argvBase sp heq
    refine ⟨hbase, hsp, hargs, hb.trans hb' ?_⟩
    have hround := roundDown_le (USERTOP - total args) 8
    rw [argvAt]
    omega

end UCore.Exec
