/-
  Inferno.DB.SimpleCompareRelation
  ────────────────────────────────
  `SimpleCompareRelation`: nodes in the order of `SimpleCompare`, and bounds of its classes.

    • `SimpleCompareKey`, `compare3Way` — nodes, and the minimax of a guide,
    • `orders_keys`             — the keys are totally preordered,
    • `compare3Way_eq_zero`     — nodes tie with themselves only, bounds with the same bound
                                  of an equivalent guide,
    • `simpleCompareOrdering`, `lowerBound`, `upperBound` — the set, and where a key would go,
    • `mem_between_minimax`     — between the bounds of a guide are the nodes equivalent to it.
-/
import Inferno.Common.StdMap
import Inferno.Helpers.SimpleCompareOrder

namespace Inferno.DB

open Inferno.Common
open Inferno.Lib
open Inferno.Helpers
open Inferno.Helpers.SimpleCompare

/-- `SimpleCompareRelation::KeyType`: a node of the domain, or a `MinimaxNode`. -/
inductive SimpleCompareKey (N : Type) where
  | normal (node : N)
  | minimax (guide : Option N) (role : BoundingRole)
deriving DecidableEq

namespace SimpleCompareRelation

variable {N : Type}

/-! ## §1. The relation. -/

/-- What is compared first: the guide in place of a `MinimaxNode`. -/
def comparedNode : SimpleCompareKey N → Option N
  | .normal node => some node
  | .minimax guide _ => guide

variable [LinearOrder N] (t : TreeNodes N)

/-- How equivalent keys compare. -/
def compareRoles : SimpleCompareKey N → SimpleCompareKey N → Int
  | .normal l, .normal r => linearCompare l r
  | .minimax _ lRole, .minimax _ rRole => lRole.toInt - rRole.toInt
  | .minimax _ lRole, .normal _ => lRole.toInt
  | .normal _, .minimax _ rRole => -rRole.toInt

/-- `SimpleCompareRelation::Compare3Way`. -/
def compare3Way (l r : SimpleCompareKey N) : Int :=
  thenBy (compareTreePtr (SimpleCompare.compare3Way t .TOTAL) (comparedNode l) (comparedNode r))
    (compareRoles l r)

/-- `SimpleCompareRelation::operator()`. -/
def less (l r : SimpleCompareKey N) : Bool := decide (compare3Way t l r < 0)

/-- Keys over a set of nodes: a `MinimaxNode` is made with one of the two roles. -/
def keysOver (S : Set N) : Set (SimpleCompareKey N) :=
  {k | comparedNode k ∈ pointers S ∧ ∀ guide role, k = .minimax guide role → role ≠ .NONE}

variable {t} {S : Set N}

/-- Classes of equivalent keys run from the lower bound through the nodes to the upper. -/
theorem orders_compareRoles : Orders (keysOver S) compareRoles where
  swap l hl r hr := by
    cases l with
    | normal l =>
        cases r with
        | normal r => exact orders_linearCompare.swap l (Set.mem_univ l) r (Set.mem_univ r)
        | minimax guide role => cases role <;> simp [compareRoles, BoundingRole.toInt]
    | minimax guide role =>
        cases r with
        | normal r => cases role <;> simp [compareRoles, BoundingRole.toInt]
        | minimax guide' role' =>
            show role.toInt - role'.toInt < 0 ↔ 0 < role'.toInt - role.toInt
            omega
  trans l hl m hm r hr hlm hmr := by
    -- a bound is below or above
    have hrole {guide : Option N} {role : BoundingRole}
        (hk : (.minimax guide role : SimpleCompareKey N) ∈ keysOver S) :
        role.toInt = -1 ∨ role.toInt = 1 := by
      have hne := hk.2 guide role rfl
      cases role with
      | MINIMUS => exact Or.inl rfl
      | NONE => exact absurd rfl hne
      | MAXIMUS => exact Or.inr rfl
    -- a node stands at zero, between the bounds
    cases l with
    | normal l =>
        cases m with
        | normal m =>
            cases r with
            | normal r =>
                exact orders_linearCompare.trans l (Set.mem_univ l) m (Set.mem_univ m) r
                  (Set.mem_univ r) hlm hmr
            | minimax guide role => exact hmr
        | minimax guide role =>
            have h1 := hrole hm
            have h2 : -role.toInt ≤ 0 := hlm
            cases r with
            | normal r =>
                have h3 : role.toInt ≤ 0 := hmr
                omega
            | minimax guide' role' =>
                have h3 : role.toInt - role'.toInt ≤ 0 := hmr
                show -role'.toInt ≤ 0
                omega
    | minimax guide role =>
        have h1 := hrole hl
        cases m with
        | normal m =>
            have h2 : role.toInt ≤ 0 := hlm
            cases r with
            | normal r => exact h2
            | minimax guide' role' =>
                have h3 : -role'.toInt ≤ 0 := hmr
                show role.toInt - role'.toInt ≤ 0
                omega
        | minimax guide' role' =>
            have h2 : role.toInt - role'.toInt ≤ 0 := hlm
            cases r with
            | normal r =>
                have h3 : role'.toInt ≤ 0 := hmr
                show role.toInt ≤ 0
                omega
            | minimax guide'' role'' =>
                have h3 : role'.toInt - role''.toInt ≤ 0 := hmr
                show role.toInt - role''.toInt ≤ 0
                omega

variable (h : Orders S (SimpleCompare.compare3Way t .TOTAL))

/-- Keys that tie. -/
theorem compare3Way_eq_zero {l r : SimpleCompareKey N} (hl : l ∈ keysOver S) (hr : r ∈ keysOver S)
    (hrefl : ∀ x ∈ S, SimpleCompare.compare3Way t .TOTAL x x = 0) : compare3Way t l r = 0
      ↔ (∃ node, l = .normal node ∧ r = .normal node)
        ∨ ∃ guide guide' role, l = .minimax guide role ∧ r = .minimax guide' role
          ∧ Option.Rel (fun x y => SimpleCompare.compare3Way t .TOTAL x y = 0) guide guide' := by
  unfold compare3Way
  rw [thenBy_eq_zero, compareTreePtr_eq_zero]
  -- two nodes, two bounds, or one of each, which never tie
  cases l with
  | normal l =>
      cases r with
      | normal r =>
          show Option.Rel _ (some l) (some r) ∧ linearCompare l r = 0 ↔ _
          rw [linearCompare_eq_zero]
          constructor
          · intro hboth
            exact Or.inl ⟨l, rfl, by rw [hboth.2]⟩
          · intro hor
            rcases hor with ⟨node, hl', hr'⟩ | ⟨_, _, _, hl', _⟩
            · cases hl'
              cases hr'
              exact ⟨Option.Rel.some (hrefl l (hl.1 l rfl)), rfl⟩
            · cases hl'
      | minimax guide role =>
          have hne := hr.2 guide role rfl
          have hrole : compareRoles (.normal l) (.minimax guide role) ≠ 0 := by
            cases role <;> simp_all [compareRoles, BoundingRole.toInt]
          refine iff_of_false (fun hboth => hrole hboth.2) ?_
          rintro (⟨_, _, hr'⟩ | ⟨_, _, _, hl', _⟩)
          · cases hr'
          · cases hl'
  | minimax guide role =>
      have hne := hl.2 guide role rfl
      cases r with
      | normal r =>
          have hrole : compareRoles (.minimax guide role) (.normal r) ≠ 0 := by
            cases role <;> simp_all [compareRoles, BoundingRole.toInt]
          refine iff_of_false (fun hboth => hrole hboth.2) ?_
          rintro (⟨_, hl', _⟩ | ⟨_, _, _, _, hr', _⟩)
          · cases hl'
          · cases hr'
      | minimax guide' role' =>
          show Option.Rel _ guide guide' ∧ role.toInt - role'.toInt = 0 ↔ _
          rw [Int.sub_eq_zero, BoundingRole.toInt_inj]
          constructor
          · intro hboth
            exact Or.inr ⟨guide, guide', role, rfl, by rw [hboth.2], hboth.1⟩
          · intro hor
            rcases hor with ⟨_, hl', _⟩ | ⟨_, _, _, hl', hr', hrel⟩
            · cases hl'
            · cases hl'
              cases hr'
              exact ⟨hrel, rfl⟩

include h

/-- **The keys over ordered nodes** are ordered, bounds included. -/
theorem orders_keys : Orders (keysOver S) (compare3Way t) := by
  have hnode : Orders (keysOver S) (fun l r =>
      compareTreePtr (SimpleCompare.compare3Way t .TOTAL) (comparedNode l) (comparedNode r)) :=
    ((orders_compareTreePtr h).comap comparedNode).mono (fun k hk => hk.1)
  exact hnode.lex (fun _ _ => orders_compareRoles.mono (fun k hk => hk.1))

omit h

/-! ## §2. The ordering. -/

variable (t)

/-- `simple_compare_ordering`, walked: the nodes in the order of the relation. -/
def simpleCompareOrdering (nodes : Finset N) : List N :=
  multisetOf (fun l r => compare3Way t (.normal l) (.normal r)) (inOrder nodes)

/-- `simple_compare_ordering.lower_bound(key)`, as a position. -/
def lowerBound (ordering : List N) (key : SimpleCompareKey N) : Nat :=
  ordering.findIdx (fun n => !less t (.normal n) key)

/-- `simple_compare_ordering.upper_bound(key)`. -/
def upperBound (ordering : List N) (key : SimpleCompareKey N) : Nat :=
  ordering.findIdx (fun n => less t key (.normal n))

variable {t}

theorem mem_simpleCompareOrdering {nodes : Finset N} {n : N} :
    n ∈ simpleCompareOrdering t nodes ↔ n ∈ nodes :=
  mem_multisetOf.trans mem_inOrder

omit [LinearOrder N] in
theorem normal_mem_keysOver {x : N} (hx : x ∈ S) : (.normal x : SimpleCompareKey N) ∈ keysOver S :=
  ⟨fun _ hy => Option.some.inj hy ▸ hx, fun _ _ hk => nomatch hk⟩

omit [LinearOrder N] in
theorem minimax_mem_keysOver {x : N} (hx : x ∈ S) {role : BoundingRole} (hrole : role ≠ .NONE) :
    (.minimax (some x) role : SimpleCompareKey N) ∈ keysOver S := by
  refine ⟨fun _ hy => Option.some.inj hy ▸ hx, ?_⟩
  intro guide role' hk
  cases hk
  exact hrole

include h

/-- A bound is below the nodes from its guide on, and not above them. -/
theorem less_minimus {g n : N} (hg : g ∈ S) (hn : n ∈ S) :
    (less t (.minimax (some g) .MINIMUS) (.normal n) = true
        ↔ SimpleCompare.compare3Way t .TOTAL g n ≤ 0)
      ∧ (less t (.normal n) (.minimax (some g) .MINIMUS) = false
        ↔ SimpleCompare.compare3Way t .TOTAL g n ≤ 0) := by
  have hswap := h.swap g hg n hn
  have hswap' := h.swap n hn g hg
  unfold less compare3Way
  rw [decide_eq_true_iff, decide_eq_false_iff_not, thenBy_neg, thenBy_neg]
  show (SimpleCompare.compare3Way t .TOTAL g n < 0
      ∨ (SimpleCompare.compare3Way t .TOTAL g n = 0 ∧ (-1 : Int) < 0) ↔ _)
    ∧ (¬ (SimpleCompare.compare3Way t .TOTAL n g < 0
      ∨ (SimpleCompare.compare3Way t .TOTAL n g = 0 ∧ (1 : Int) < 0)) ↔ _)
  constructor <;> omega

theorem less_maximus {g n : N} (hg : g ∈ S) (hn : n ∈ S) :
    (less t (.minimax (some g) .MAXIMUS) (.normal n) = true
        ↔ SimpleCompare.compare3Way t .TOTAL g n < 0)
      ∧ (less t (.normal n) (.minimax (some g) .MAXIMUS) = false
        ↔ SimpleCompare.compare3Way t .TOTAL g n < 0) := by
  have hswap := h.swap g hg n hn
  have hswap' := h.swap n hn g hg
  unfold less compare3Way
  rw [decide_eq_true_iff, decide_eq_false_iff_not, thenBy_neg, thenBy_neg]
  show (SimpleCompare.compare3Way t .TOTAL g n < 0
      ∨ (SimpleCompare.compare3Way t .TOTAL g n = 0 ∧ (1 : Int) < 0) ↔ _)
    ∧ (¬ (SimpleCompare.compare3Way t .TOTAL n g < 0
      ∨ (SimpleCompare.compare3Way t .TOTAL n g = 0 ∧ (-1 : Int) < 0)) ↔ _)
  constructor <;> omega

/-- **The ordering is sorted by `SimpleCompare`.** -/
theorem simpleCompareOrdering_sorted {nodes : Finset N} (hnodes : ∀ n ∈ nodes, n ∈ S) :
    (simpleCompareOrdering t nodes).Pairwise
      (fun l r => SimpleCompare.compare3Way t .TOTAL l r ≤ 0) := by
  have hnormal : Orders S (fun l r => compare3Way t (.normal l) (.normal r)) :=
    ((orders_keys h).comap SimpleCompareKey.normal).mono (fun _ hx => normal_mem_keysOver hx)
  have hsorted := multisetOf_sorted hnormal (l := inOrder nodes)
    (fun n hn => hnodes n (mem_inOrder.mp hn))
  apply hsorted.imp
  intro l r hle
  have hle : thenBy (SimpleCompare.compare3Way t .TOTAL l r) (linearCompare l r) ≤ 0 := hle
  rw [thenBy_nonpos] at hle
  omega

/-- The two ways of finding where a bound goes are one: no node ties with it. -/
theorem bounds_minimax {nodes : Finset N} (hnodes : ∀ n ∈ nodes, n ∈ S) {g : N} (hg : g ∈ S)
    {role : BoundingRole} (hrole : role ≠ .NONE) :
    upperBound t (simpleCompareOrdering t nodes) (.minimax (some g) role)
      = lowerBound t (simpleCompareOrdering t nodes) (.minimax (some g) role) := by
  unfold upperBound lowerBound
  apply findIdx_congr
  intro n hn
  have hnS := hnodes n (mem_simpleCompareOrdering.mp hn)
  rw [Bool.eq_iff_iff, Bool.not_eq_true']
  cases role with
  | MINIMUS => rw [(less_minimus h hg hnS).1, (less_minimus h hg hnS).2]
  | NONE => exact absurd rfl hrole
  | MAXIMUS => rw [(less_maximus h hg hnS).1, (less_maximus h hg hnS).2]

/-- **Between the bounds of a guide** are the nodes equivalent to it. -/
theorem mem_between_minimax {nodes : Finset N} (hnodes : ∀ n ∈ nodes, n ∈ S) {g : N} (hg : g ∈ S)
    (n : N) :
    n ∈ ((simpleCompareOrdering t nodes).take (lowerBound t (simpleCompareOrdering t nodes)
          (.minimax (some g) .MAXIMUS))).drop
        (lowerBound t (simpleCompareOrdering t nodes) (.minimax (some g) .MINIMUS))
      ↔ n ∈ nodes ∧ SimpleCompare.compare3Way t .TOTAL g n = 0 := by
  have hsorted := simpleCompareOrdering_sorted h hnodes
  have hmem {n : N} (hn : n ∈ simpleCompareOrdering t nodes) : n ∈ S :=
    hnodes n (mem_simpleCompareOrdering.mp hn)
  -- along the ordering, once at a bound one stays there
  have hmono (role : BoundingRole) (hrole : role ≠ .NONE) :
      (simpleCompareOrdering t nodes).Pairwise (fun l r =>
        (!less t (.normal l) (.minimax (some g) role)) = true →
          (!less t (.normal r) (.minimax (some g) role)) = true) := by
    refine hsorted.imp_of_mem ?_
    intro l r hl hr hle
    rw [Bool.not_eq_true', Bool.not_eq_true']
    cases role with
    | MINIMUS =>
        rw [(less_minimus h hg (hmem hl)).2, (less_minimus h hg (hmem hr)).2]
        exact fun hgl => h.trans g hg l (hmem hl) r (hmem hr) hgl hle
    | NONE => exact absurd rfl hrole
    | MAXIMUS =>
        rw [(less_maximus h hg (hmem hl)).2, (less_maximus h hg (hmem hr)).2]
        exact fun hgl => h.neg_trans hg (hmem hl) (hmem hr) hgl hle
  unfold lowerBound
  rw [mem_drop_take_findIdx (hmono .MINIMUS (by decide)) (hmono .MAXIMUS (by decide)),
    mem_simpleCompareOrdering]
  refine and_congr_right (fun hn => ?_)
  rw [Bool.not_eq_true', Bool.not_eq_false', (less_minimus h hg (hnodes n hn)).2,
    ← Bool.not_eq_false, (less_maximus h hg (hnodes n hn)).2]
  omega

end SimpleCompareRelation

end Inferno.DB
