/-
  Inferno.Common.Orderable
  ────────────────────────
  `Orderable`: what an order of nodes is asked for.

    • `OrderProperty` — how far nodes are told apart,
    • `BoundingRole`  — whether a node stands for itself, or bounds those that tie with it.
-/
import Mathlib.Data.Int.Notation

namespace Inferno.Common

/-- `Orderable::OrderProperty`. -/
inductive OrderProperty where
  | TOTAL
  | REPEATABLE
deriving DecidableEq

/-- `Orderable::BoundingRole`. -/
inductive BoundingRole where
  | MINIMUS
  | NONE
  | MAXIMUS
deriving DecidableEq

/-- `(int)role`. -/
def BoundingRole.toInt : BoundingRole → Int
  | MINIMUS => -1
  | NONE => 0
  | MAXIMUS => 1

theorem BoundingRole.toInt_inj {r s : BoundingRole} : r.toInt = s.toInt ↔ r = s := by
  cases r <;> cases s <;> simp [toInt]

end Inferno.Common
