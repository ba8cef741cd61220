/-
  Inferno.Lib.FilteredPreorder
  ────────────────────────────
  A depth-first walk that asks two questions at each node, whether to hand it out and
  whether to go below it, and whose answers may depend on what was asked before.

    • `filteredPreorder`         — the walk, with the state of the answers,
    • `filterState`              — the first question alone, along a list,
    • `filteredPreorder_eq_filterState` — when going below depends on the node only, the
                                   walk is the plain one on the nodes gone below, filtered,
    • `filteredPreorder_sublist` — it hands out what the plain walk meets, in its order.
-/
import Inferno.Lib.Preorder

namespace Inferno.Lib

variable {K E σ : Type*} (children : E → List (K × E))

/-- What a visit hands out, for each child in turn. -/
def inTurn (visit : σ → E → List (List K × E) × σ) :
    σ → List (K × E) → List (List K × E) × σ
  | s, [] => ([], s)
  | s, c :: rest =>
      let here := visit s c.2
      let later := inTurn visit here.2 rest
      (here.1.map (fun found => (c.1 :: found.1, found.2)) ++ later.1, later.2)

/-- The walk.  The number bounds the depth. -/
def filteredPreorder (enter descend : σ → E → Bool × σ) :
    Nat → σ → E → List (List K × E) × σ
  | 0, s, _ => ([], s)
  | depth + 1, s, x =>
      let entered := enter s x
      let descended := descend entered.2 x
      let below :=
        if descended.1 then
          inTurn (filteredPreorder enter descend depth) descended.2 (children x)
        else ([], descended.2)
      ((if entered.1 then [([], x)] else []) ++ below.1, below.2)

/-- The first question along a list. -/
def filterState {P : Type*} (enter : σ → E → Bool × σ) :
    σ → List (P × E) → List (P × E) × σ
  | s, [] => ([], s)
  | s, v :: rest =>
      let entered := enter s v.2
      let later := filterState enter entered.2 rest
      ((if entered.1 then [v] else []) ++ later.1, later.2)

/-- The children that the walk goes to, when going below depends on the node only. -/
def openChildren (below : E → Bool) (x : E) : List (K × E) :=
  if below x then children x else []

section

variable {children} {P Q : Type*} {enter : σ → E → Bool × σ}

theorem filterState_cons (v : P × E) (l : List (P × E)) (s : σ) :
    filterState enter s (v :: l)
      = ((if (enter s v.2).1 then [v] else []) ++ (filterState enter (enter s v.2).2 l).1,
        (filterState enter (enter s v.2).2 l).2) := rfl

theorem inTurn_cons (visit : σ → E → List (List K × E) × σ) (c : K × E) (l : List (K × E))
    (s : σ) :
    inTurn visit s (c :: l)
      = ((visit s c.2).1.map (fun found => (c.1 :: found.1, found.2))
          ++ (inTurn visit (visit s c.2).2 l).1, (inTurn visit (visit s c.2).2 l).2) := rfl

theorem filterState_append (l l' : List (P × E)) (s : σ) :
    filterState enter s (l ++ l')
      = ((filterState enter s l).1 ++ (filterState enter (filterState enter s l).2 l').1,
        (filterState enter (filterState enter s l).2 l').2) := by
  induction l generalizing s with
  | nil => rfl
  | cons v l ih =>
      rw [List.cons_append, filterState_cons, filterState_cons, ih]
      simp only [List.append_assoc]

theorem filterState_map (f : P → Q) (l : List (P × E)) (s : σ) :
    filterState enter s (l.map fun v => (f v.1, v.2))
      = ((filterState enter s l).1.map (fun v => (f v.1, v.2)), (filterState enter s l).2) := by
  induction l generalizing s with
  | nil => rfl
  | cons v l ih =>
      rw [List.map_cons, filterState_cons, filterState_cons, ih]
      show ((if (enter s v.2).1 then _ else _) ++ _, _) = _
      cases (enter s v.2).1 <;> rfl

theorem filterState_sublist (l : List (P × E)) (s : σ) :
    (filterState enter s l).1.Sublist l := by
  induction l generalizing s with
  | nil => exact List.Sublist.refl _
  | cons v l ih =>
      rw [filterState_cons]
      cases (enter s v.2).1 with
      | false => exact (ih _).cons v
      | true => exact (ih _).cons_cons v

/-- When the answers depend on the node only, so is it. -/
theorem filterState_pure (accept : E → Bool) (l : List (P × E)) (s : σ) :
    filterState (fun s x => (accept x, s)) s l = (l.filter fun v => accept v.2, s) := by
  induction l with
  | nil => rfl
  | cons v l ih =>
      rw [filterState_cons, List.filter_cons]
      show ((if accept v.2 then [v] else []) ++ (filterState _ s l).1, (filterState _ s l).2) = _
      rw [ih]
      cases accept v.2 <;> rfl

/-- **Going below by the node alone**, the walk is the plain one with its first question. -/
theorem filteredPreorder_eq_filterState (below : E → Bool) (depth : Nat) : ∀ (s : σ) (x : E),
    filteredPreorder children enter (fun s x => (below x, s)) depth s x
      = filterState enter s (preorder (openChildren children below) depth x) := by
  induction depth with
  | zero => exact fun _ _ => rfl
  | succ depth ih =>
      intro s x
      have hturn : ∀ (l : List (K × E)) (s : σ),
          inTurn (filteredPreorder children enter (fun s x => (below x, s)) depth) s l
            = filterState enter s (l.flatMap fun c =>
              (preorder (openChildren children below) depth c.2).map fun found =>
                (c.1 :: found.1, found.2)) := by
        intro l
        induction l with
        | nil => exact fun _ => rfl
        | cons c l ihl =>
            intro s
            rw [inTurn_cons, List.flatMap_cons, filterState_append, filterState_map, ih, ihl]
      unfold filteredPreorder preorder
      rw [filterState_cons]
      simp only [openChildren, hturn]
      cases below x <;> rfl

/-- **What is handed out is what the plain walk meets, in its order**, with nodes left
out. -/
theorem filteredPreorder_sublist {descend : σ → E → Bool × σ} (depth : Nat) :
    ∀ (s : σ) (x : E), (filteredPreorder children enter descend depth s x).1.Sublist
      (preorder children depth x) := by
  induction depth with
  | zero => exact fun _ _ => List.Sublist.refl _
  | succ depth ih =>
      intro s x
      -- one child after the other; only the state of the filter goes on
      have hturn : ∀ (l : List (K × E)) (s : σ),
          (inTurn (filteredPreorder children enter descend depth) s l).1.Sublist
            (l.flatMap fun c => (preorder children depth c.2).map fun found =>
              (c.1 :: found.1, found.2)) := by
        intro l
        induction l with
        | nil => exact fun _ => List.Sublist.refl _
        | cons c l ihl =>
            intro s
            rw [inTurn_cons, List.flatMap_cons]
            exact ((ih s c.2).map _).append (ihl _)
      -- and none where the filter does not descend
      have hbelow : ((if (descend (enter s x).2 x).1 then
            inTurn (filteredPreorder children enter descend depth)
              (descend (enter s x).2 x).2 (children x)
          else ([], (descend (enter s x).2 x).2)) : List (List K × E) × σ).1.Sublist
            ((children x).flatMap fun c => (preorder children depth c.2).map fun found =>
              (c.1 :: found.1, found.2)) := by
        cases (descend (enter s x).2 x).1 with
        | false => exact List.nil_sublist _
        | true => exact hturn _ _
      unfold filteredPreorder preorder
      show ((if (enter s x).1 then [([], x)] else []) ++ _).Sublist _
      cases (enter s x).1 with
      | false => exact hbelow.cons _
      | true => exact hbelow.cons_cons _

/-- A plain walk's steps can be renamed. -/
theorem preorder_mapSteps {J : Type*} (f : K → J) (depth : Nat) : ∀ x,
    (preorder children depth x).map (fun found => (found.1.map f, found.2))
      = preorder (fun y => (children y).map fun c => (f c.1, c.2)) depth x := by
  induction depth with
  | zero => exact fun _ => rfl
  | succ depth ih =>
      intro x
      unfold preorder
      rw [List.map_cons, List.map_flatMap, List.flatMap_map]
      congr 1
      refine List.flatMap_congr fun c _ => ?_
      rw [← ih c.2, List.map_map, List.map_map]
      rfl

end

end Inferno.Lib
