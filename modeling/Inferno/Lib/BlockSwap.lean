/-
  Inferno.Lib.BlockSwap
  ─────────────────────
  Exchanging two blocks of a sequence, and the length of the sequence as a path.

    • `swapAt`, `swapBlocks` — exchange two elements; exchange two equal blocks,
    • `junction`             — the weight between two neighbours, 0 off the ends,
    • `pathWeight`           — the sum over all neighbours,
    • `pathWeight_append`    — a path in two pieces,
    • `pathWeight_exchange`  — what exchanging two blocks changes, by the junctions at
                               the ends of the blocks alone.
-/
import Mathlib.Data.List.Basic
import Mathlib.Data.List.Perm.Basic
import Mathlib.Algebra.BigOperators.Group.Finset.Basic
import Mathlib.Algebra.BigOperators.Intervals

namespace Inferno.Lib

variable {α : Type}

/-! ## §1. Exchanging blocks. -/

/-- `swap(l.at(i), l.at(j))`; `none` off the end. -/
def swapAt (l : List α) (i j : Nat) : Option (List α) :=
  match l[i]?, l[j]? with
  | some x, some y => some ((l.set i y).set j x)
  | _, _ => none

/-- Swap `i + k` with `j + k` for `k = 0, …, bs - 1`. -/
def swapBlocks : Nat → Nat → Nat → List α → Option (List α)
  | 0, _, _, l => some l
  | bs + 1, i, j, l => (swapAt l i j).bind (swapBlocks bs (i + 1) (j + 1))

theorem swapAt_append (a m b : List α) (x y : α) :
    swapAt (a ++ x :: m ++ y :: b) (a.length + 1 + m.length) a.length
      = some (a ++ y :: m ++ x :: b) := by
  have hy : (a ++ x :: m ++ y :: b)[a.length + 1 + m.length]? = some y := by
    rw [List.getElem?_append_right (by simp; omega)]
    simp [Nat.add_assoc, Nat.add_comm 1]
  have hx : (a ++ x :: m ++ y :: b)[a.length]? = some x := by
    simp
  unfold swapAt
  rw [hy, hx]
  simp only [List.append_assoc, List.cons_append]
  rw [List.set_append_right _ _ (by omega)]
  have hi : a.length + 1 + m.length - a.length = m.length + 1 := by omega
  rw [hi, List.set_cons_succ, List.set_append_right _ _ (Nat.le_refl _),
    List.set_append_right _ _ (Nat.le_refl _)]
  simp

/-- **Two blocks change places**, the part between them stays. -/
theorem swapBlocks_append (js : List α) : ∀ (is a m b : List α), is.length = js.length →
    swapBlocks js.length (a.length + js.length + m.length) a.length (a ++ js ++ m ++ is ++ b)
      = some (a ++ is ++ m ++ js ++ b) := by
  induction js with
  | nil =>
      intro is a m b h
      obtain rfl : is = [] := List.length_eq_zero_iff.mp h
      rfl
  | cons x js ih =>
      intro is a m b h
      cases is with
      | nil => simp at h
      | cons y is =>
          have hl : is.length = js.length := Nat.succ.inj h
          -- the heads are swapped first; then `y` belongs to the part before, `x` to
          -- the part between
          have hhead := swapAt_append a (js ++ m) (is ++ b) x y
          have hrest := ih is (a ++ [y]) (m ++ [x]) b hl
          rw [List.length_append] at hhead
          simp only [List.length_append, List.length_singleton] at hrest
          have hi : a.length + (js.length + 1) + m.length = a.length + 1 + (js.length + m.length) := by
            omega
          have hi' : a.length + 1 + (js.length + m.length) + 1
              = a.length + 1 + js.length + (m.length + 1) := by omega
          show swapBlocks (js.length + 1) (a.length + (js.length + 1) + m.length) a.length
              (a ++ x :: js ++ m ++ y :: is ++ b) = some (a ++ y :: is ++ m ++ x :: js ++ b)
          unfold swapBlocks
          rw [hi]
          simp only [List.append_assoc, List.cons_append, List.nil_append] at hhead hrest ⊢
          rw [hhead, Option.bind_some, hi']
          exact hrest

/-! ## §2. Path weights. -/

variable (w : α → α → Nat)

/-- The weight between two neighbours, either of which may be missing. -/
def junction : Option α → Option α → Nat
  | some x, some y => w x y
  | _, _ => 0

@[simp] theorem junction_none_left (y : Option α) : junction w none y = 0 := rfl

@[simp] theorem junction_none_right (x : Option α) : junction w x none = 0 := by
  cases x <;> rfl

theorem junction_comm (hw : ∀ x y, w x y = w y x) (x y : Option α) :
    junction w x y = junction w y x := by
  cases x <;> cases y <;> simp [junction, hw]

/-- The sum of the weights between neighbours. -/
def pathWeight : List α → Nat
  | [] => 0
  | x :: l => junction w (some x) l.head? + pathWeight l

theorem pathWeight_append (l m : List α) :
    pathWeight w (l ++ m) = pathWeight w l + junction w l.getLast? m.head? + pathWeight w m := by
  induction l with
  | nil => simp [pathWeight]
  | cons x l ih =>
      cases l with
      | nil => simp [pathWeight]
      | cons y l =>
          show junction w (some x) (some y) + pathWeight w ((y :: l) ++ m) = _
          rw [ih]
          show _ = junction w (some x) (some y) + pathWeight w (y :: l)
            + junction w (some ((x :: y :: l).getLast (by simp))) m.head? + pathWeight w m
          rw [List.getLast_cons (by simp), List.getLast?_eq_some_getLast (by simp)]
          omega

theorem pathWeight_eq_sum (l : List α) :
    pathWeight w l = ∑ k ∈ Finset.range l.length, junction w l[k]? l[k + 1]? := by
  induction l with
  | nil => rfl
  | cons x l ih =>
      rw [List.length_cons, Finset.sum_range_succ', pathWeight, ih, Nat.add_comm]
      simp [List.head?_eq_getElem?]

/-- **What an exchange changes**: the junctions at the ends of the two blocks.  Blocks
that touch share one. -/
theorem pathWeight_exchange (a js m is b : List α) (hj : js ≠ []) (hi : is ≠ []) :
    pathWeight w (a ++ js ++ m ++ is ++ b)
        + (junction w a.getLast? is.head? + junction w js.getLast? b.head?
          + if m = [] then junction w is.getLast? js.head?
            else junction w is.getLast? m.head? + junction w m.getLast? js.head?)
      = pathWeight w (a ++ is ++ m ++ js ++ b)
        + (junction w a.getLast? js.head? + junction w is.getLast? b.head?
          + if m = [] then junction w js.getLast? is.head?
            else junction w js.getLast? m.head? + junction w m.getLast? is.head?) := by
  have hlast (l l' : List α) (h : l' ≠ []) : (l ++ l').getLast? = l'.getLast? :=
    List.getLast?_append_of_ne_nil l h
  by_cases hm : m = []
  · subst hm
    simp only [List.append_nil, if_pos]
    rw [pathWeight_append, pathWeight_append, pathWeight_append, pathWeight_append,
      pathWeight_append, pathWeight_append, hlast _ _ hi, hlast _ _ hj, hlast _ _ hi,
      hlast _ _ hj]
    omega
  · simp only [if_neg hm]
    rw [pathWeight_append, pathWeight_append, pathWeight_append, pathWeight_append,
      pathWeight_append, pathWeight_append, pathWeight_append, pathWeight_append,
      hlast _ _ hi, hlast _ _ hm, hlast _ _ hj, hlast _ _ hj, hlast _ _ hm, hlast _ _ hi]
    omega

end Inferno.Lib
