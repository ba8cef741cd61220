/-
  Inferno.Lang.PostPassExact
  ──────────────────────────
  When the pass over a parsed tree leaves no code unit where none is accepted.

    • `Met`, `cleaned`  — the links that accept none, and the child of each after the pass,
    • `Through`         — the links met on the ways through a link,
    • `after`           — the tree when the ways through some links have been gone,
    • `processMutator_eq` — the recursion goes all ways through its link, and no other,
    • `cleans_of_singleUnits` — so it cleans the tree.
-/
import Inferno.Lang.PostPass
import Inferno.Lib.FoldM
import Inferno.Lib.Height

namespace Inferno.Lang.PostPass

open Inferno.Common Inferno.Lib
open Inferno.DB (Item)

variable {L N : Type} {node : N → PassNode L} {root : L} {children₀ : Children L N}

/-! ## §1. Ways. -/

theorem canAcceptBelow_false (n : PassNode L) : n.canAcceptBelow false = false := by
  cases n with
  | codeUnit _ _ => rfl
  | plain _ => rfl
  | agent colocating relocating items =>
      show (if (colocating || relocating) = true then false else false) = false
      split <;> rfl

theorem Illegal.child {l l' : L} {n : N} {children : Children L N}
    (h : Illegal node root children l) (hn : children l = some n) (hl : l' ∈ (node n).links) :
    Illegal node root children l' := by
  have hchild := Reaches.child h hn hl
  rw [canAcceptBelow_false] at hchild
  exact hchild

/-- The member of a code unit. -/
theorem mem_links_codeUnit {n : N} {isAgent : Bool} {m : L}
    (hunit : node n = .codeUnit isAgent [m]) : m ∈ (node n).links := by
  rw [hunit]
  exact List.mem_singleton_self m

theorem eq_of_mem_links_codeUnit {n : N} {isAgent : Bool} {m l : L}
    (hunit : node n = .codeUnit isAgent [m]) (hl : l ∈ (node n).links) : l = m := by
  rw [hunit] at hl
  exact List.mem_singleton.mp hl

/-- The pass comes to links of the tree, and knows what they accept. -/
theorem Way.reaches {l : L} {ls : List L} {canAccept : Bool}
    (h : Way node root children₀ (l :: ls) canAccept) :
    Reaches node root children₀ l canAccept := by
  generalize hp : l :: ls = p at h
  induction h generalizing l ls with
  | root =>
      cases hp
      exact .root
  | child _ hn hl ih =>
      cases hp
      exact (ih rfl).child hn hl
  | member _ hn hunit hx hl ih =>
      cases hp
      exact (Illegal.child (ih rfl) hn (mem_links_codeUnit hunit)).child hx hl

/-- One way, one flag. -/
theorem Way.flag_eq {p : List L} {canAccept canAccept' : Bool}
    (h : Way node root children₀ p canAccept) (h' : Way node root children₀ p canAccept') :
    canAccept = canAccept' := by
  induction h generalizing canAccept' with
  | root =>
      cases h'
      rfl
  | child _ hn _ ih =>
      cases h' with
      | child _ hn' _ =>
          obtain rfl := Option.some.inj (hn.symm.trans hn')
          rfl
      | member hl' _ _ _ _ => cases ih hl'
  | member _ _ _ _ _ ih =>
      cases h' with
      | child hl' _ _ => cases ih hl'
      | member _ _ _ _ _ => rfl

/-- A way starts with a way. -/
theorem Way.suffix {p q : List L} {canAccept : Bool} (h : Way node root children₀ q canAccept)
    (hp : p <:+ q) (hne : p ≠ []) : ∃ flag, Way node root children₀ p flag := by
  induction h with
  | root =>
      rcases List.suffix_cons_iff.mp hp with rfl | hp
      · exact ⟨_, .root⟩
      · exact absurd (List.suffix_nil.mp hp) hne
  | child hway hn hl ih =>
      rcases List.suffix_cons_iff.mp hp with rfl | hp
      · exact ⟨_, .child hway hn hl⟩
      · exact ih hp
  | member hway hn hunit hx hl ih =>
      rcases List.suffix_cons_iff.mp hp with rfl | hp
      · exact ⟨_, .member hway hn hunit hx hl⟩
      · exact ih hp

/-- Every way is from the root. -/
theorem Way.from_root {p : List L} {canAccept : Bool} (h : Way node root children₀ p canAccept) :
    [root] <:+ p := by
  induction h with
  | root => exact List.suffix_refl _
  | child _ _ _ ih => exact ih.trans (List.suffix_cons _ _)
  | member _ _ _ _ _ ih => exact ih.trans (List.suffix_cons _ _)

/-- **The links of the tree**, where the code units that are not accepted are not nested: those
that the pass comes to, and the members of these code units. -/
theorem way_of_reaches (hunits : SingleUnits node root children₀) {l : L} {canAccept : Bool}
    (h : Reaches node root children₀ l canAccept) :
    (∃ ls, Way node root children₀ (l :: ls) canAccept)
      ∨ (canAccept = false ∧ ∃ l₁ ls n isAgent, Way node root children₀ (l₁ :: ls) false
        ∧ children₀ l₁ = some n ∧ node n = .codeUnit isAgent [l]) := by
  induction h with
  | root => exact .inl ⟨[], .root⟩
  | @child l l' canAccept n _ hn hl ih =>
      rcases ih with ⟨ls, hway⟩ | ⟨rfl, l₁, ls, n₁, isAgent, hway, hn₁, hunit⟩
      · cases canAccept with
        | true => exact .inl ⟨l :: ls, hway.child hn hl⟩
        | false =>
            -- the link is the member of the code unit
            obtain ⟨n', isAgent, m, x, hn', hunit, _, _⟩ :=
              hunits l ls hway (Option.isSome_iff_exists.mpr ⟨n, hn⟩)
            obtain rfl := Option.some.inj (hn.symm.trans hn')
            obtain rfl := eq_of_mem_links_codeUnit hunit hl
            exact .inr ⟨canAcceptBelow_false _, l, ls, n, isAgent, hway, hn, hunit⟩
      · rw [canAcceptBelow_false]
        exact .inl ⟨l₁ :: ls, hway.member hn₁ hunit hn hl⟩

/-! ## §2. The tree after the pass. -/

/-- The pass comes to the link, and it accepts no code unit. -/
def Met (node : N → PassNode L) (root : L) (children₀ : Children L N) (l : L) : Prop :=
  ∃ ls, Way node root children₀ (l :: ls) false

open Classical in
/-- The child of each link after the pass. -/
noncomputable def cleaned (node : N → PassNode L) (root : L) (children₀ : Children L N)
    (l : L) : Option N :=
  if Met node root children₀ l then
    match children₀ l with
    | none => none
    | some n =>
        match node n with
        | .codeUnit _ [m] => children₀ m
        | _ => some n
  else children₀ l

theorem cleaned_of_unit {l m : L} {n : N} {isAgent : Bool} (hmet : Met node root children₀ l)
    (hn : children₀ l = some n) (hunit : node n = .codeUnit isAgent [m]) :
    cleaned node root children₀ l = children₀ m := by
  unfold cleaned
  rw [if_pos hmet, hn]
  show (match node n with
    | .codeUnit _ [m] => children₀ m
    | _ => some n) = children₀ m
  rw [hunit]

theorem cleaned_of_not_met {l : L} (h : ¬ Met node root children₀ l) :
    cleaned node root children₀ l = children₀ l := by
  unfold cleaned
  rw [if_neg h]

theorem cleaned_of_null {l : L} (h : children₀ l = none) :
    cleaned node root children₀ l = none := by
  unfold cleaned
  rw [h]
  split <;> rfl

/-- The pass does not come to the member of a code unit that it replaces. -/
theorem member_not_met (hunits : SingleUnits node root children₀) {m : L} {x : N}
    (hx : children₀ m = some x) (hother : (node x).isCodeUnit = false) :
    ¬ Met node root children₀ m := by
  rintro ⟨ls, hway⟩
  obtain ⟨n, isAgent, m', _, hn, hunit, _, _⟩ :=
    hunits m ls hway (Option.isSome_iff_exists.mpr ⟨x, hx⟩)
  obtain rfl := Option.some.inj (hx.symm.trans hn)
  rw [hunit] at hother
  cases hother

/-- A link met on one way is not come to on another, with any flag. -/
theorem not_met_of_true (honce : MetOnce node root children₀) {l : L} {ls : List L}
    (h : Way node root children₀ (l :: ls) true) (hsome : (children₀ l).isSome) :
    ¬ Met node root children₀ l := by
  rintro ⟨ls', hway⟩
  obtain rfl := honce l ls' ls true hway h hsome
  cases h.flag_eq hway

/-! ## §3. What has been gone through. -/

/-- `a` is met on a way that starts with `p`. -/
def Through (node : N → PassNode L) (root : L) (children₀ : Children L N) (p : List L) (a : L) :
    Prop :=
  ∃ q, Way node root children₀ (a :: q) false ∧ p <:+ a :: q

theorem Through.met {p : List L} {a : L} (h : Through node root children₀ p a) :
    Met node root children₀ a := by
  obtain ⟨q, hway, _⟩ := h
  exact ⟨q, hway⟩

theorem Through.up {p p' : List L} {a : L} (h : Through node root children₀ p a)
    (hp : p' <:+ p) : Through node root children₀ p' a := by
  obtain ⟨q, hway, hq⟩ := h
  exact ⟨q, hway, hp.trans hq⟩

theorem through_root {a : L} :
    Through node root children₀ [root] a ↔ Met node root children₀ a := by
  constructor
  · exact Through.met
  · rintro ⟨q, hway⟩
    exact ⟨q, hway, hway.from_root⟩

/-- The next link of a way. -/
theorem Way.next {l l' : L} {ls : List L} {canAccept flag : Bool}
    (h : Way node root children₀ (l' :: l :: ls) flag)
    (hl : Way node root children₀ (l :: ls) canAccept) {n : N} (hn : children₀ l = some n) :
    (canAccept = true ∧ l' ∈ (node n).links)
      ∨ (canAccept = false ∧ ∃ isAgent m x, node n = .codeUnit isAgent [m]
        ∧ children₀ m = some x ∧ l' ∈ (node x).links) := by
  cases h with
  | child hway hn' hl' =>
      obtain rfl := Option.some.inj (hn.symm.trans hn')
      exact .inl ⟨hl.flag_eq hway, hl'⟩
  | member hway hn' hunit hx hl' =>
      obtain rfl := Option.some.inj (hn.symm.trans hn')
      exact .inr ⟨hl.flag_eq hway, _, _, _, hunit, hx, hl'⟩

/-- What is met through a link: the link, or what is met through the next one. -/
theorem Through.cases {l a : L} {ls : List L} (h : Through node root children₀ (l :: ls) a) :
    (a = l ∧ Way node root children₀ (l :: ls) false)
      ∨ ∃ l' flag, Way node root children₀ (l' :: l :: ls) flag
        ∧ Through node root children₀ (l' :: l :: ls) a := by
  obtain ⟨q, hway, hq⟩ := h
  obtain ⟨front, hfront⟩ := hq
  rcases List.eq_nil_or_concat front with rfl | ⟨front', l', rfl⟩
  · rw [List.nil_append] at hfront
    cases hfront
    exact .inl ⟨rfl, hway⟩
  · have hsuffix : l' :: l :: ls <:+ a :: q := ⟨front', by
      rw [← hfront, List.concat_eq_append, List.append_assoc]
      rfl⟩
    obtain ⟨flag, hflag⟩ := hway.suffix hsuffix (List.cons_ne_nil _ _)
    exact .inr ⟨l', flag, hflag, q, hway, hsuffix⟩

/-- Nothing is met through a NULL link but the link. -/
theorem Through.eq_of_null {l a : L} {ls : List L} (h : Through node root children₀ (l :: ls) a)
    (hnull : children₀ l = none) : a = l := by
  rcases h.cases with ⟨heq, _⟩ | ⟨l', flag, hway, _⟩
  · exact heq
  · exfalso
    cases hway with
    | child _ hn _ =>
        rw [hnull] at hn
        cases hn
    | member _ hn _ _ _ =>
        rw [hnull] at hn
        cases hn

open Classical in
/-- **The tree when the ways through some links have been gone**; all are next after `p`. -/
noncomputable def after (node : N → PassNode L) (root : L) (children₀ : Children L N)
    (p ls : List L) (children : Children L N) : Children L N := fun a =>
  if ∃ l ∈ ls, Through node root children₀ (l :: p) a then cleaned node root children₀ a
  else children a

theorem after_of_through {p ls : List L} {children : Children L N} {l a : L} (hl : l ∈ ls)
    (h : Through node root children₀ (l :: p) a) :
    after node root children₀ p ls children a = cleaned node root children₀ a :=
  if_pos ⟨l, hl, h⟩

theorem after_of_not_through {p ls : List L} {children : Children L N} {a : L}
    (h : ¬ ∃ l ∈ ls, Through node root children₀ (l :: p) a) :
    after node root children₀ p ls children a = children a :=
  if_neg h

theorem after_nil (p : List L) (children : Children L N) :
    after node root children₀ p [] children = children := by
  funext a
  refine after_of_not_through ?_
  rintro ⟨l, hl, _⟩
  cases hl

theorem after_append (p ls ls' : List L) (children : Children L N) :
    after node root children₀ p ls' (after node root children₀ p ls children)
      = after node root children₀ p (ls ++ ls') children := by
  funext a
  by_cases hls' : ∃ l ∈ ls', Through node root children₀ (l :: p) a
  · obtain ⟨l, hl, h⟩ := hls'
    rw [after_of_through hl h, after_of_through (List.mem_append_right ls hl) h]
  · rw [after_of_not_through hls']
    by_cases hls : ∃ l ∈ ls, Through node root children₀ (l :: p) a
    · obtain ⟨l, hl, h⟩ := hls
      rw [after_of_through hl h, after_of_through (List.mem_append_left ls' hl) h]
    · rw [after_of_not_through hls, after_of_not_through]
      rintro ⟨l, hl, h⟩
      rcases List.mem_append.mp hl with hl | hl
      · exact hls ⟨l, hl, h⟩
      · exact hls' ⟨l, hl, h⟩

/-- A NULL link is passed over. -/
theorem after_null {p : List L} {l : L} {children : Children L N} (hnull : children₀ l = none)
    (hsame : children l = none) :
    after node root children₀ p [l] children = children := by
  funext a
  by_cases h : ∃ l' ∈ [l], Through node root children₀ (l' :: p) a
  · obtain ⟨l', hl', h⟩ := h
    obtain rfl := List.mem_singleton.mp hl'
    obtain rfl := h.eq_of_null hnull
    rw [after_of_through hl' h, cleaned_of_null hnull, hsame]
  · exact after_of_not_through h

/-! ## §4. While the pass runs. -/

/-- **The invariant**: the child of each link is what it was, or what it is to be. -/
def Between (node : N → PassNode L) (root : L) (children₀ children : Children L N) : Prop :=
  ∀ a, children a = children₀ a ∨ (Met node root children₀ a
    ∧ children a = cleaned node root children₀ a)

/-- No way through the links has been gone. -/
def Fresh (node : N → PassNode L) (root : L) (children₀ : Children L N) (p ls : List L)
    (children : Children L N) : Prop :=
  ∀ l ∈ ls, ∀ a, Through node root children₀ (l :: p) a → children a = children₀ a

theorem Between.of_not_met {children : Children L N} (h : Between node root children₀ children)
    {a : L} (hmet : ¬ Met node root children₀ a) : children a = children₀ a :=
  (h a).resolve_right fun hboth => hmet hboth.1

theorem Between.of_null {children : Children L N} (h : Between node root children₀ children)
    {a : L} (hnull : children₀ a = none) : children a = none := by
  rcases h a with heq | ⟨_, heq⟩
  · rw [heq, hnull]
  · rw [heq, cleaned_of_null hnull]

/-- The link the pass comes to has not been changed. -/
theorem Between.of_fresh (honce : MetOnce node root children₀) {children : Children L N}
    (h : Between node root children₀ children) {l : L} {p : List L} {canAccept : Bool}
    (hway : Way node root children₀ (l :: p) canAccept)
    (hfresh : Fresh node root children₀ p [l] children) : children l = children₀ l := by
  cases canAccept with
  | false => exact hfresh l (List.mem_singleton_self l) l ⟨p, hway, List.suffix_refl _⟩
  | true =>
      cases hchild : children₀ l with
      | none => exact h.of_null hchild
      | some n =>
          rw [← hchild]
          exact h.of_not_met
            (not_met_of_true honce hway (Option.isSome_iff_exists.mpr ⟨n, hchild⟩))

theorem Between.after {children : Children L N} (h : Between node root children₀ children)
    (p ls : List L) :
    Between node root children₀ (PostPass.after node root children₀ p ls children) := by
  intro a
  by_cases hls : ∃ l ∈ ls, Through node root children₀ (l :: p) a
  · obtain ⟨l, hl, hthrough⟩ := hls
    exact .inr ⟨hthrough.met, after_of_through hl hthrough⟩
  · rw [after_of_not_through hls]
    exact h a

/-- Ways through different links meet nothing in common, but NULLs. -/
theorem through_disjoint (honce : MetOnce node root children₀) {p : List L} {l l' a : L}
    (hne : l ≠ l') (h : Through node root children₀ (l :: p) a)
    (h' : Through node root children₀ (l' :: p) a) : children₀ a = none := by
  obtain ⟨q, hway, hq⟩ := h
  obtain ⟨q', hway', hq'⟩ := h'
  by_contra hsome
  obtain rfl := honce a q q' false hway hway' (Option.ne_none_iff_isSome.mp hsome)
  have heq : l :: p = l' :: p := by
    rcases List.suffix_or_suffix_of_suffix hq hq' with hs | hs
    · exact hs.eq_of_length rfl
    · exact (hs.eq_of_length rfl).symm
  exact hne (List.cons.inj heq).1

/-- The ways through the other links are still to be gone. -/
theorem Fresh.after (honce : MetOnce node root children₀) {p ls ls' : List L}
    {children : Children L N} (hfresh : Fresh node root children₀ p ls' children)
    (hdisjoint : ∀ l ∈ ls, l ∉ ls') :
    Fresh node root children₀ p ls' (PostPass.after node root children₀ p ls children) := by
  intro l' hl' a hthrough
  by_cases hls : ∃ l ∈ ls, Through node root children₀ (l :: p) a
  · obtain ⟨l, hl, hthrough'⟩ := hls
    have hne : l ≠ l' := by
      rintro rfl
      exact hdisjoint l hl hl'
    have hnull := through_disjoint honce hne hthrough' hthrough
    rw [after_of_through hl hthrough', cleaned_of_null hnull, hnull]
  · rw [after_of_not_through hls]
    exact hfresh l' hl' a hthrough

/-! ## §5. The recursion. -/

/-- **What a call does**: it goes the ways through its link. -/
def Goes (node : N → PassNode L) (root : L) (children₀ : Children L N)
    (process : Children L N → Option (Children L N)) (p ls : List L) : Prop :=
  ∀ children, Between node root children₀ children → Fresh node root children₀ p ls children →
    process children = some (after node root children₀ p ls children)

theorem Goes.nil (p : List L) : Goes node root children₀ some p [] := by
  intro children _ _
  rw [after_nil]

/-- One call after another. -/
theorem Goes.bind (honce : MetOnce node root children₀)
    {process process' : Children L N → Option (Children L N)} {p ls ls' : List L}
    (h : Goes node root children₀ process p ls) (h' : Goes node root children₀ process' p ls')
    (hnodup : (ls ++ ls').Nodup) :
    Goes node root children₀ (fun children => process children >>= process') p (ls ++ ls') := by
  intro children hbetween hfresh
  have hfirst : Fresh node root children₀ p ls children :=
    fun l hl => hfresh l (List.mem_append_left ls' hl)
  have hsecond : Fresh node root children₀ p ls' children :=
    fun l hl => hfresh l (List.mem_append_right ls hl)
  have hapart : ∀ l ∈ ls, l ∉ ls' :=
    fun l hl hl' => (List.nodup_append.mp hnodup).2.2 l hl l hl' rfl
  show process children >>= process' = _
  rw [h children hbetween hfirst, ← after_append]
  exact h' _ (hbetween.after p ls) (hsecond.after honce hapart)

/-- A loop of calls. -/
theorem Goes.foldlM (honce : MetOnce node root children₀) {A : Type} {p : List L}
    (step : Children L N → A → Option (Children L N)) (links : A → List L) (as : List A)
    (h : ∀ a ∈ as, Goes node root children₀ (fun children => step children a) p (links a))
    (hnodup : (as.flatMap links).Nodup) :
    Goes node root children₀ (fun children => as.foldlM step children) p (as.flatMap links) := by
  induction as with
  | nil => exact Goes.nil p
  | cons a as ih =>
      rw [List.forall_mem_cons] at h
      rw [List.flatMap_cons] at hnodup ⊢
      exact h.1.bind honce (ih h.2 (List.nodup_append.mp hnodup).2.1) hnodup

/-- **The items of a node**, if the calls for their links do. -/
theorem Goes.processItem (honce : MetOnce node root children₀)
    {process : L → Bool → Children L N → Option (Children L N)} {canAccept : Bool} {p : List L}
    {item : Item L}
    (hway : ∀ l ∈ item.links, Way node root children₀ (l :: p) canAccept)
    (hprocess : ∀ l ∈ item.links, (children₀ l).isSome →
      Goes node root children₀ (process l canAccept) p [l])
    (hnonnull : (∀ l, item ≠ .singular l) → ∀ l ∈ item.links, (children₀ l).isSome)
    (hnodup : item.links.Nodup) :
    Goes node root children₀ (fun children => PostPass.processItem process canAccept children item)
      p item.links := by
  -- the loop over a container
  have hloop : ∀ ls : List L, item.links = ls → (∀ l ∈ ls, (children₀ l).isSome) →
      Goes node root children₀ (processContainer process canAccept ls) p ls := by
    rintro ls rfl hsome
    have hgoes := Goes.foldlM (p := p) honce
      (fun children l => do
        ASSERT (children l).isSome
        process l canAccept children)
      (fun l : L => [l]) item.links
      (by
        intro l hl children hbetween hfresh
        have hchild := hbetween.of_fresh honce (hway l hl) hfresh
        have hpos : (children l).isSome := by
          rw [hchild]
          exact hsome l hl
        exact ASSERT_bind_eq_some.mpr ⟨hpos, hprocess l hl (hsome l hl) children hbetween hfresh⟩)
      (by
        rw [List.flatMap_singleton']
        exact hnodup)
    rw [List.flatMap_singleton'] at hgoes
    exact hgoes
  cases item with
  | singular l =>
      intro children hbetween hfresh
      have hl : l ∈ (Item.singular l).links := List.mem_singleton_self l
      have hchild := hbetween.of_fresh honce (hway l hl) hfresh
      show processSingularItem process canAccept l children = _
      unfold processSingularItem
      by_cases hsome : (children₀ l).isSome
      · rw [hchild, if_pos hsome]
        exact hprocess l hl hsome children hbetween hfresh
      · rw [hchild, if_neg hsome]
        have hnull := Option.not_isSome_iff_eq_none.mp hsome
        exact congrArg some (after_null hnull (hchild.trans hnull)).symm
  | sequence ls => exact hloop ls rfl (hnonnull (by intro l heq; cases heq))
  | collection ls => exact hloop ls rfl (hnonnull (by intro l heq; cases heq))

/-- The ways through a link that accepts code units are those through the links of its child. -/
theorem after_child {l : L} {p : List L} {n : N} (hway : Way node root children₀ (l :: p) true)
    (hn : children₀ l = some n) (children : Children L N) :
    after node root children₀ (l :: p) (node n).links children
      = after node root children₀ p [l] children := by
  funext a
  by_cases h : Through node root children₀ (l :: p) a
  · rw [after_of_through (List.mem_singleton_self l) h]
    rcases h.cases with ⟨_, hfalse⟩ | ⟨l', flag, hl', hthrough⟩
    · cases hway.flag_eq hfalse
    · rcases hl'.next hway hn with ⟨_, hmem⟩ | ⟨hfalse, _⟩
      · exact after_of_through hmem hthrough
      · cases hfalse
  · rw [after_of_not_through, after_of_not_through]
    · rintro ⟨l', hl', hthrough⟩
      obtain rfl := List.mem_singleton.mp hl'
      exact h hthrough
    · rintro ⟨l', _, hthrough⟩
      exact h (hthrough.up (List.suffix_cons _ _))

variable [DecidableEq L]

/-- Those through a link with a code unit are the link, and the ways through the links of the
member's child. -/
theorem after_member {l m : L} {p : List L} {n x : N} {isAgent : Bool}
    (hway : Way node root children₀ (l :: p) false) (hn : children₀ l = some n)
    (hunit : node n = .codeUnit isAgent [m]) (hx : children₀ m = some x)
    (children : Children L N) :
    after node root children₀ (l :: p) (node x).links (Function.update children l (some x))
      = after node root children₀ p [l] children := by
  have hself : Through node root children₀ (l :: p) l := ⟨p, hway, List.suffix_refl _⟩
  have hclean : cleaned node root children₀ l = some x :=
    (cleaned_of_unit ⟨p, hway⟩ hn hunit).trans hx
  funext a
  -- through the link: what the member's child holds is cleaned, the link holds it
  by_cases h : Through node root children₀ (l :: p) a
  · rw [after_of_through (List.mem_singleton_self l) h]
    by_cases hbelow : ∃ l' ∈ (node x).links, Through node root children₀ (l' :: l :: p) a
    · obtain ⟨l', hl', hthrough⟩ := hbelow
      exact after_of_through hl' hthrough
    · rw [after_of_not_through hbelow]
      rcases h.cases with ⟨rfl, _⟩ | ⟨l', flag, hl', hthrough⟩
      · rw [Function.update_self, hclean]
      · exfalso
        rcases hl'.next hway hn with ⟨htrue, _⟩ | ⟨_, isAgent', m', x', hunit', hx', hmem⟩
        · cases htrue
        · obtain ⟨_, hm⟩ := PassNode.codeUnit.inj (hunit.symm.trans hunit')
          obtain rfl := (List.cons.inj hm).1
          obtain rfl := Option.some.inj (hx.symm.trans hx')
          exact hbelow ⟨l', hmem, hthrough⟩
  · -- not through the link: nothing changes
    have hne : a ≠ l := by
      rintro rfl
      exact h hself
    rw [after_of_not_through, after_of_not_through, Function.update_of_ne hne]
    · rintro ⟨l', hl', hthrough⟩
      obtain rfl := List.mem_singleton.mp hl'
      exact h hthrough
    · rintro ⟨l', _, hthrough⟩
      exact h (hthrough.up (List.suffix_cons _ _))

/-- **The exchange** of a code unit for its member. -/
theorem exchange_unit {l m : L} {n : N} {isAgent : Bool} {children : Children L N}
    (hn : children l = some n) (hunit : node n = .codeUnit isAgent [m]) :
    exchange node l children = some (Function.update children l (children m)) := by
  unfold exchange
  rw [hn]
  show ((node n).members >>= _) = _
  rw [hunit]
  rfl

/-- **The recursion goes the ways through its link**, by induction on the fuel, which the
height of the link's child bounds. -/
theorem processMutator_goes (hparsed : Parsed node root children₀)
    (hunits : SingleUnits node root children₀) (honce : MetOnce node root children₀)
    {height : N → Nat} (hheight : ∀ parent, ∀ child ∈ (node parent).links.filterMap children₀,
      height child < height parent) (fuel : Nat) :
    ∀ {l : L} {p : List L} {canAccept : Bool} {n : N},
      Way node root children₀ (l :: p) canAccept → children₀ l = some n → height n < fuel →
      Goes node root children₀ (processMutator node fuel l canAccept) p [l] := by
  induction fuel with
  | zero =>
      intro l p canAccept n _ _ hlt
      exact absurd hlt (Nat.not_lt_zero _)
  | succ fuel ih =>
      intro l p canAccept n hway hn hlt children hbetween hfresh
      have hchild : children l = some n := (hbetween.of_fresh honce hway hfresh).trans hn
      -- the items of the node found, which is no higher than `n`
      have hitems : ∀ {x : N} {flag : Bool} {children : Children L N},
          (∀ l' ∈ (node x).links, Way node root children₀ (l' :: l :: p) flag) →
          height x ≤ height n →
          (∀ item ∈ (node x).itemise, (∀ l', item ≠ .singular l') →
            ∀ l' ∈ item.links, (children₀ l').isSome) →
          Between node root children₀ children →
          Fresh node root children₀ (l :: p) (node x).links children →
          (node x).itemise.foldlM (processItem (processMutator node fuel) flag) children
            = some (after node root children₀ (l :: p) (node x).links children) := by
        intro x flag children hways hle hnonnull hbetween hfresh
        refine Goes.foldlM honce _ Item.links (node x).itemise ?_ (hparsed.nodup x) children
          hbetween hfresh
        intro item hitem
        have hlinks : ∀ l' ∈ item.links, l' ∈ (node x).links :=
          fun l' hl' => List.mem_flatMap.mpr ⟨item, hitem, hl'⟩
        refine Goes.processItem honce (fun l' hl' => hways l' (hlinks l' hl')) ?_
          (hnonnull item hitem) ((List.nodup_flatMap.mp (hparsed.nodup x)).1 item hitem)
        intro l' hl' hsome
        obtain ⟨n', hn'⟩ := Option.isSome_iff_exists.mp hsome
        have hbelow := hheight x n' (List.mem_filterMap.mpr ⟨l', hlinks l' hl', hn'⟩)
        exact ih (hways l' (hlinks l' hl')) hn' (by omega)
      unfold processMutator
      cases canAccept with
      -- code units are accepted: the links of the child itself
      | true =>
          show (children l).bind _ = _
          rw [hchild, ← after_child hway hn]
          refine hitems (fun l' hl' => hway.child hn hl') (le_refl _) ?_ hbetween ?_
          · exact hparsed.nonnull l true n hway.reaches hn
          · intro l' _ a hthrough
            exact hfresh l (List.mem_singleton_self l) a (hthrough.up (List.suffix_cons _ _))
      | false =>
          -- a code unit of one member: the member's child takes its place
          obtain ⟨n', isAgent, m, x, hn', hunit, hx, hother⟩ :=
            hunits l p hway (Option.isSome_iff_exists.mpr ⟨n, hn⟩)
          obtain rfl := Option.some.inj (hn.symm.trans hn')
          have hm : children m = some x :=
            (hbetween.of_not_met (member_not_met hunits hx hother)).trans hx
          show (exchange node l children).bind _ = _
          rw [exchange_unit hchild hunit, hm]
          show (Function.update children l (some x) l).bind _ = _
          rw [Function.update_self, ← after_member hway hn hunit hx]
          -- what the member holds was parsed where no code unit is accepted
          have hillegal : Illegal node root children₀ m :=
            Illegal.child hway.reaches hn (mem_links_codeUnit hunit)
          have hlow := hheight n x (List.mem_filterMap.mpr ⟨m, mem_links_codeUnit hunit, hx⟩)
          show (node x).itemise.foldlM (processItem _ ((node x).canAcceptBelow false)) _ = _
          rw [canAcceptBelow_false]
          refine hitems (fun l' hl' => hway.member hn hunit hx hl') hlow.le
            (hparsed.nonnull m false x hillegal hx) ?_ ?_
          · -- between the two states only the link itself has changed
            intro a
            by_cases ha : a = l
            · subst ha
              rw [Function.update_self, cleaned_of_unit ⟨p, hway⟩ hn hunit, hx]
              exact .inr ⟨⟨p, hway⟩, rfl⟩
            · rw [Function.update_of_ne ha]
              exact hbetween a
          · -- a way back to the link would be a second one
            intro l' _ a hthrough
            have hne : a ≠ l := by
              rintro rfl
              obtain ⟨q, hq, hsuffix⟩ := hthrough
              obtain rfl := honce a q p false hq hway (Option.isSome_iff_exists.mpr ⟨n, hn⟩)
              have hlen := hsuffix.length_le
              rw [List.length_cons] at hlen
              omega
            rw [Function.update_of_ne hne]
            exact hfresh l (List.mem_singleton_self l) a (hthrough.up (List.suffix_cons _ _))

/-! ## §6. The whole pass. -/

/-- **The pass gives every link the child it is to have.** -/
theorem run_eq_cleaned (hparsed : Parsed node root children₀)
    (hunits : SingleUnits node root children₀) (honce : MetOnce node root children₀) :
    ∃ fuel, run node fuel root children₀ = some (cleaned node root children₀) := by
  obtain ⟨height, hheight⟩ := exists_height hparsed.acyclic
  obtain ⟨n, hn⟩ := Option.isSome_iff_exists.mp hparsed.rootNonnull
  refine ⟨height n + 1, ?_⟩
  have hrun := processMutator_goes hparsed hunits honce hheight (height n + 1) (p := [])
    .root hn (Nat.lt_succ_self _) children₀ (fun a => .inl rfl) (fun _ _ _ _ => rfl)
  refine hrun.trans (congrArg some (funext fun a => ?_))
  by_cases hmet : Met node root children₀ a
  · exact after_of_through (List.mem_singleton_self root) (through_root.mpr hmet)
  · rw [after_of_not_through, cleaned_of_not_met hmet]
    rintro ⟨l, _, hthrough⟩
    exact hmet hthrough.met

omit [DecidableEq L] in
/-- The links of the tree after the pass: those that it came to. -/
theorem way_of_reaches_cleaned (hunits : SingleUnits node root children₀)
    (honce : MetOnce node root children₀) {l : L} {canAccept : Bool}
    (h : Reaches node root (cleaned node root children₀) l canAccept) :
    ∃ ls, Way node root children₀ (l :: ls) canAccept := by
  induction h with
  | root => exact ⟨[], .root⟩
  | @child l l' canAccept x _ hx hl ih =>
      obtain ⟨ls, hway⟩ := ih
      have hsome : (children₀ l).isSome := by
        by_contra hnone
        rw [cleaned_of_null (Option.not_isSome_iff_eq_none.mp hnone)] at hx
        cases hx
      cases canAccept with
      | true =>
          rw [cleaned_of_not_met (not_met_of_true honce hway hsome)] at hx
          exact ⟨l :: ls, hway.child hx hl⟩
      | false =>
          obtain ⟨n, isAgent, m, x', hn, hunit, hx', _⟩ := hunits l ls hway hsome
          rw [cleaned_of_unit ⟨ls, hway⟩ hn hunit] at hx
          rw [canAcceptBelow_false]
          exact ⟨l :: ls, hway.member hn hunit hx hl⟩

/-- **The pass cleans a tree** in which every link that it comes to and that accepts no code
unit is NULL, or has a code unit that is not nested and is met once. -/
theorem cleans_of_singleUnits (hparsed : Parsed node root children₀)
    (hunits : SingleUnits node root children₀) (honce : MetOnce node root children₀) :
    Cleans node root children₀ := by
  obtain ⟨fuel, hrun⟩ := run_eq_cleaned hparsed hunits honce
  refine ⟨fuel, _, hrun, ?_, ?_⟩
  · intro l hl x hx
    obtain ⟨ls, hway⟩ := way_of_reaches_cleaned hunits honce hl
    have hsome : (children₀ l).isSome := by
      by_contra hnone
      rw [cleaned_of_null (Option.not_isSome_iff_eq_none.mp hnone)] at hx
      cases hx
    obtain ⟨n, isAgent, m, x', hn, hunit, hx', hother⟩ := hunits l ls hway hsome
    rw [cleaned_of_unit ⟨ls, hway⟩ hn hunit, hx'] at hx
    cases hx
    exact hother
  · intro l canAccept hl
    obtain ⟨ls, hway⟩ := way_of_reaches_cleaned hunits honce hl
    refine ⟨?_, cleaned_of_null, ?_⟩
    · intro hillegal n hn
      have hsome : (children₀ l).isSome := Option.isSome_iff_exists.mpr ⟨n, hn⟩
      by_cases hmet : Met node root children₀ l
      · obtain ⟨ls', hway'⟩ := hmet
        obtain ⟨n', isAgent, m, x, hn', hunit, hx, hother⟩ := hunits l ls' hway' hsome
        obtain rfl := Option.some.inj (hn.symm.trans hn')
        exact ⟨x, .member hunit hx (.other hother),
          (cleaned_of_unit ⟨ls', hway'⟩ hn hunit).trans hx⟩
      · -- it is the member of a code unit that was replaced
        refine ⟨n, .other ?_, (cleaned_of_not_met hmet).trans hn⟩
        rcases way_of_reaches hunits hillegal with hway' | ⟨_, l₁, ls₁, n₁, isAgent₁, hway₁, hn₁, h₁⟩
        · exact absurd hway' hmet
        · obtain ⟨n', isAgent, m, x, hn', hunit, hx, hother⟩ :=
            hunits l₁ ls₁ hway₁ (Option.isSome_iff_exists.mpr ⟨n₁, hn₁⟩)
          obtain rfl := Option.some.inj (hn₁.symm.trans hn')
          obtain ⟨_, hm⟩ := PassNode.codeUnit.inj (h₁.symm.trans hunit)
          obtain rfl := (List.cons.inj hm).1
          obtain rfl := Option.some.inj (hn.symm.trans hx)
          exact hother
    · intro hlegal
      refine cleaned_of_not_met ?_
      rintro ⟨ls', hway'⟩
      exact hlegal hway'.reaches

end Inferno.Lang.PostPass
