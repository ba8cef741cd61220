/-
  Inferno.Lib.GreedyOrder
  ───────────────────────
  Putting things in order of their dependencies: take the first that depends on none of
  those left, again and again.

    • `Acyclic`           — no chain of dependencies in a list comes back,
    • `exists_free`       — then something in it depends on nothing in it,
    • `greedyOrder`       — the loop; taking a thing takes it wherever it occurs,
    • `greedyOrder_spec`  — what it returns.
-/
import Mathlib.Data.Fintype.Card
import Mathlib.Data.Fintype.EquivFin
import Mathlib.Data.List.Dedup
import Mathlib.Logic.Relation
import Mathlib.Order.WellFounded

namespace Inferno.Lib

variable {D : Type} [DecidableEq D] (dep : D → D → Bool)

/-- One thing of `l` depends on another. -/
def DependsIn (l : List D) (a b : D) : Prop := a ∈ l ∧ b ∈ l ∧ dep a b = true

/-- No chain of dependencies in `l` comes back to where it starts. -/
def Acyclic (l : List D) : Prop := ∀ a, ¬ Relation.TransGen (DependsIn dep l) a a

variable {dep}

omit [DecidableEq D] in
theorem Acyclic.mono {l m : List D} (h : Acyclic dep l) (hsub : ∀ a ∈ m, a ∈ l) :
    Acyclic dep m := by
  intro a hcycle
  have hle : DependsIn dep m ≤ DependsIn dep l :=
    fun x y hxy => ⟨hsub x hxy.1, hsub y hxy.2.1, hxy.2.2⟩
  exact h a (Relation.TransGen.mono hle a a hcycle)

omit [DecidableEq D] in
/-- A rank that falls along dependencies leaves no cycle. -/
theorem acyclic_of_rank {l : List D} (rank : D → Nat)
    (h : ∀ a ∈ l, ∀ b ∈ l, dep a b = true → rank b < rank a) : Acyclic dep l := by
  intro a hcycle
  have hfalls : ∀ b, Relation.TransGen (DependsIn dep l) a b → rank b < rank a := by
    intro b hb
    induction hb with
    | single hab => exact h _ hab.1 _ hab.2.1 hab.2.2
    | tail _ hbc ih => exact Nat.lt_trans (h _ hbc.1 _ hbc.2.1 hbc.2.2) ih
  exact Nat.lt_irrefl _ (hfalls a hcycle)

/-- **Without cycles, something depends on nothing**: chains in a finite list are
well-founded. -/
theorem exists_free {l : List D} (h : Acyclic dep l) (hne : l ≠ []) :
    ∃ a ∈ l, ∀ b ∈ l, dep a b = false := by
  have hfinite : Finite {a // a ∈ l} := Finite.of_fintype _
  have htrans : IsTrans {a // a ∈ l}
      (fun x y => Relation.TransGen (DependsIn dep l) y.val x.val) :=
    ⟨fun x y z hxy hyz => hyz.trans hxy⟩
  have hirrefl : Std.Irrefl
      (fun x y : {a // a ∈ l} => Relation.TransGen (DependsIn dep l) y.val x.val) :=
    ⟨fun x hx => h x.val hx⟩
  have hwf := Finite.wellFounded_of_trans_of_irrefl
    (fun x y : {a // a ∈ l} => Relation.TransGen (DependsIn dep l) y.val x.val)
  obtain ⟨d, hd⟩ := List.exists_mem_of_ne_nil l hne
  obtain ⟨a, -, hmin⟩ := hwf.has_min Set.univ ⟨⟨d, hd⟩, Set.mem_univ _⟩
  refine ⟨a.val, a.property, fun b hb => ?_⟩
  by_contra hdep
  exact hmin ⟨b, hb⟩ (Set.mem_univ _)
    (Relation.TransGen.single ⟨a.property, hb, by simpa using hdep⟩)

variable (dep)

/-- The first thing that depends on none there. -/
def firstFree (l : List D) : Option D := l.find? fun a => l.all fun b => !dep a b

variable {dep}

omit [DecidableEq D] in
theorem firstFree_eq_some {l : List D} {a : D} (h : firstFree dep l = some a) :
    a ∈ l ∧ ∀ b ∈ l, dep a b = false := by
  constructor
  · exact List.mem_of_find?_eq_some h
  · have hall := List.find?_some h
    intro b hb
    simpa using List.all_eq_true.mp hall b hb

theorem exists_firstFree {l : List D} (h : Acyclic dep l) (hne : l ≠ []) :
    ∃ a, firstFree dep l = some a := by
  obtain ⟨a, ha, hfree⟩ := exists_free h hne
  cases hfind : firstFree dep l with
  | some b => exact ⟨b, rfl⟩
  | none =>
      have hno := List.find?_eq_none.mp hfind a ha
      refine absurd (List.all_eq_true.mpr fun b hb => ?_) hno
      rw [hfree b hb]
      rfl

variable (dep)

/-- The loop; `none` where nothing can be taken.  Each turn takes something, so the length
is fuel enough. -/
def greedyOrder : Nat → List D → Option (List D)
  | _, [] => some []
  | 0, _ :: _ => none
  | fuel + 1, d :: ds => do
      let a ← firstFree dep (d :: ds)
      let rest ← greedyOrder fuel ((d :: ds).filter (· ≠ a))
      some (a :: rest)

variable {dep}

/-- **What the loop returns**: each thing once, none before one it depends on; by induction
on the fuel. -/
theorem greedyOrder_spec (fuel : Nat) : ∀ {l : List D}, Acyclic dep l → l.length ≤ fuel →
    ∃ out, greedyOrder dep fuel l = some out ∧ out.Nodup ∧ (∀ a, a ∈ out ↔ a ∈ l) ∧
      out.Pairwise (fun a b => dep a b = false) := by
  induction fuel with
  | zero =>
      intro l _ hlen
      have hnil : l = [] := List.length_eq_zero_iff.mp (Nat.le_zero.mp hlen)
      rw [hnil]
      exact ⟨[], rfl, List.nodup_nil, fun a => Iff.rfl, List.Pairwise.nil⟩
  | succ fuel ih =>
      intro l hacyclic hlen
      cases l with
      | nil => exact ⟨[], rfl, List.nodup_nil, fun a => Iff.rfl, List.Pairwise.nil⟩
      | cons d ds =>
          -- a thing that depends on nothing left, and then the others without it
          obtain ⟨a, hfirst⟩ := exists_firstFree hacyclic (List.cons_ne_nil d ds)
          obtain ⟨ha, hfree⟩ := firstFree_eq_some hfirst
          have hmem : ∀ b, b ∈ (d :: ds).filter (· ≠ a) ↔ b ∈ d :: ds ∧ b ≠ a := by
            intro b
            rw [List.mem_filter, decide_eq_true_eq]
          have hshort : ((d :: ds).filter (· ≠ a)).length ≤ fuel := by
            have hlt : ((d :: ds).filter (· ≠ a)).length < (d :: ds).length := by
              refine List.length_filter_lt_length_iff_exists.mpr ⟨a, ha, ?_⟩
              simp
            omega
          obtain ⟨out, hout, hnodup, hsame, hpairs⟩ :=
            ih (hacyclic.mono fun b hb => ((hmem b).mp hb).1) hshort
          refine ⟨a :: out, ?_, ?_, ?_, ?_⟩
          · show (firstFree dep (d :: ds)).bind _ = _
            rw [hfirst]
            show (greedyOrder dep fuel ((d :: ds).filter (· ≠ a))).bind _ = _
            rw [hout]
            rfl
          · refine List.nodup_cons.mpr ⟨fun hin => ?_, hnodup⟩
            exact ((hmem a).mp ((hsame a).mp hin)).2 rfl
          · intro b
            rw [List.mem_cons, hsame, hmem]
            by_cases hb : b = a
            · rw [hb]
              exact ⟨fun _ => ha, fun _ => Or.inl rfl⟩
            · exact ⟨fun h => (h.resolve_left hb).1, fun h => Or.inr ⟨h, hb⟩⟩
          · -- it depends on none of those that come after
            refine List.pairwise_cons.mpr ⟨fun b hb => ?_, hpairs⟩
            exact hfree b ((hmem b).mp ((hsame b).mp hb)).1

end Inferno.Lib
