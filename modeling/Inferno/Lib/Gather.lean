/-
  Inferno.Lib.Gather
  ──────────────────
  The recursive union over a graph of shared objects: what an object holds, and
  what the objects it points to gather, and so on.

    • `gather`      — the recursion, with explicit fuel,
    • `Reaches`     — following the pointers,
    • `mem_gather`  — when it returns, it returns what is held within reach,
    • `gather_of_rank` — it returns when a rank falls along every pointer,
    • `gather_eq_none_of_cycle` — it never returns from an object that reaches itself,
    • `ranked_link` — a rank survives a new pointer that closes no cycle.
-/
import Mathlib.Data.Finset.Basic
import Mathlib.Logic.Relation

namespace Inferno.Lib

variable {I X : Type*} [DecidableEq X]

/-! ## §1. A union of partial results. -/

/-- The loop that unites the results of `f` over a list, or fails with one of them. -/
def uniteAll (f : I → Option (Finset X)) (l : List I) (acc : Finset X) : Option (Finset X) :=
  l.foldlM (fun acc j => (f j).map (acc ∪ ·)) acc

theorem uniteAll_isSome {f : I → Option (Finset X)} {l : List I} :
    ∀ {acc : Finset X}, (∀ j ∈ l, (f j).isSome) → (uniteAll f l acc).isSome := by
  induction l with
  | nil => intro acc _; rfl
  | cons j l ih =>
      intro acc h
      obtain ⟨s, hs⟩ := Option.isSome_iff_exists.mp (h j List.mem_cons_self)
      show (((f j).map (acc ∪ ·)).bind (uniteAll f l)).isSome
      rw [hs]
      exact ih (fun k hk => h k (List.mem_cons_of_mem _ hk))

theorem uniteAll_eq_some {f : I → Option (Finset X)} {l : List I} {s : Finset X} :
    ∀ {acc : Finset X}, uniteAll f l acc = some s →
      (∀ j ∈ l, (f j).isSome) ∧ ∀ x, x ∈ s ↔ x ∈ acc ∨ ∃ j ∈ l, ∃ t, f j = some t ∧ x ∈ t := by
  induction l with
  | nil =>
      intro acc h
      cases h
      exact ⟨by simp, by simp⟩
  | cons j l ih =>
      intro acc h
      have h' : ((f j).map (acc ∪ ·)).bind (uniteAll f l) = some s := h
      cases hj : f j with
      | none =>
          rw [hj] at h'
          cases h'
      | some t =>
          rw [hj] at h'
          obtain ⟨hall, hmem⟩ := ih (show uniteAll f l (acc ∪ t) = some s from h')
          refine ⟨?_, ?_⟩
          · intro k hk
            rcases List.mem_cons.mp hk with rfl | hk
            · rw [hj]
              rfl
            · exact hall k hk
          · intro x
            rw [hmem, Finset.mem_union, List.exists_mem_cons_iff, hj]
            simp only [Option.some.injEq, exists_eq_left', or_assoc]

/-! ## §2. The recursion. -/

section

variable (val : I → Finset X) (next : I → List I)

/-- What `i` holds, united with what everything it points to gathers. -/
def gather : Nat → I → Option (Finset X)
  | 0, _ => none
  | fuel + 1, i => uniteAll (gather fuel) (next i) (val i)

/-- Following the pointers, in any number of steps. -/
def Reaches (i j : I) : Prop := Relation.ReflTransGen (fun i j => j ∈ next i) i j

variable {next}

theorem Reaches.refl (i : I) : Reaches next i i := Relation.ReflTransGen.refl

theorem Reaches.step {i j : I} (h : j ∈ next i) : Reaches next i j :=
  Relation.ReflTransGen.single h

theorem Reaches.trans {i j k : I} (h : Reaches next i j) (h' : Reaches next j k) :
    Reaches next i k :=
  Relation.ReflTransGen.trans h h'

theorem Reaches.mono {next' : I → List I} (hsub : ∀ i, ∀ j ∈ next i, j ∈ next' i) {i j : I}
    (h : Reaches next i j) : Reaches next' i j :=
  Relation.ReflTransGen.mono (fun a b hab => hsub a b hab) i j h

/-- An object that points to nothing reaches itself only. -/
theorem Reaches.eq_of_next_nil {i j : I} (hnil : next i = []) (h : Reaches next i j) : j = i := by
  rcases Relation.ReflTransGen.cases_head h with rfl | ⟨k, hk, _⟩
  · rfl
  · rw [hnil] at hk
    cases hk

variable {val}

theorem gather_succ_isSome {n : Nat} {i j : I} (hj : j ∈ next i)
    (h : (gather val next (n + 1) i).isSome) : (gather val next n j).isSome := by
  obtain ⟨s, hs⟩ := Option.isSome_iff_exists.mp h
  exact (uniteAll_eq_some hs).1 j hj

/-- **What `gather` returns** is what is held within reach. -/
theorem mem_gather : ∀ {n : Nat} {i : I} {s : Finset X}, gather val next n i = some s →
    ∀ x, x ∈ s ↔ ∃ j, Reaches next i j ∧ x ∈ val j := by
  intro n
  induction n with
  | zero => intro i s h; cases h
  | succ n ih =>
      intro i s h x
      obtain ⟨hall, hmem⟩ := uniteAll_eq_some h
      rw [hmem]
      constructor
      · intro hx
        rcases hx with hx | ⟨j, hj, t, ht, hx⟩
        · exact ⟨i, Reaches.refl i, hx⟩
        · obtain ⟨k, hk, hxk⟩ := (ih ht x).mp hx
          exact ⟨k, (Reaches.step hj).trans hk, hxk⟩
      · intro hx
        obtain ⟨k, hk, hxk⟩ := hx
        rcases Relation.ReflTransGen.cases_head hk with rfl | ⟨j, hj, hjk⟩
        · exact Or.inl hxk
        · obtain ⟨t, ht⟩ := Option.isSome_iff_exists.mp (hall j hj)
          exact Or.inr ⟨j, hj, t, ht, (ih ht x).mpr ⟨k, hjk, hxk⟩⟩

/-! ## §3. When it returns. -/

/-- A rank that falls along every pointer. -/
def Ranked (next : I → List I) (r : I → Nat) : Prop := ∀ i, ∀ j ∈ next i, r j < r i

theorem gather_of_rank (val : I → Finset X) {r : I → Nat} (hr : Ranked next r) :
    ∀ {n : Nat} {i : I}, r i < n → (gather val next n i).isSome := by
  intro n
  induction n with
  | zero => intro i h; exact absurd h (Nat.not_lt_zero _)
  | succ n ih =>
      intro i h
      refine uniteAll_isSome (fun j hj => ih ?_)
      have hlt := hr i j hj
      omega

/-- **It never returns from an object that reaches itself**: the fuel would fall on
the way round. -/
theorem gather_eq_none_of_cycle {i j : I} (hj : j ∈ next i) (hback : Reaches next j i) :
    ∀ n, gather val next n i = none := by
  have hdown : ∀ {a b : I}, Reaches next a b → ∀ n, (gather val next n a).isSome →
      ∃ m, m ≤ n ∧ (gather val next m b).isSome := by
    intro a b hab
    induction hab with
    | refl => intro n h; exact ⟨n, le_refl n, h⟩
    | tail _ hstep ih =>
        intro n h
        obtain ⟨m, hm, hs⟩ := ih n h
        cases m with
        | zero => cases hs
        | succ m => exact ⟨m, by omega, gather_succ_isSome hstep hs⟩
  intro n
  induction n using Nat.strong_induction_on with
  | _ n ih =>
      cases n with
      | zero => rfl
      | succ n =>
          by_contra hne
          have hs := gather_succ_isSome hj (Option.ne_none_iff_isSome.mp hne)
          obtain ⟨m, hm, hs'⟩ := hdown hback n hs
          rw [ih m (by omega)] at hs'
          cases hs'

/-- Nor from an object that points to one from which it never returns. -/
theorem gather_eq_none_of_next {i j : I} (hj : j ∈ next i) (hnone : ∀ n, gather val next n j = none) :
    ∀ n, gather val next n i = none := by
  intro n
  cases n with
  | zero => rfl
  | succ n =>
      by_contra hne
      have hs := gather_succ_isSome hj (Option.ne_none_iff_isSome.mp hne)
      rw [hnone n] at hs
      cases hs

/-- Fuel above the rank always gives the same result. -/
theorem gather_eq_of_rank (val : I → Finset X) {r : I → Nat} (hr : Ranked next r) (i : I) :
    ∃ s, (∀ n, r i < n → gather val next n i = some s)
      ∧ ∀ x, x ∈ s ↔ ∃ j, Reaches next i j ∧ x ∈ val j := by
  obtain ⟨s, hs⟩ := Option.isSome_iff_exists.mp
    (gather_of_rank val hr (Nat.lt_succ_self (r i)))
  refine ⟨s, ?_, mem_gather hs⟩
  intro n hn
  obtain ⟨t, ht⟩ := Option.isSome_iff_exists.mp (gather_of_rank val hr hn)
  rw [ht, Option.some.injEq]
  ext x
  rw [mem_gather ht, mem_gather hs]

/-- **A new pointer that closes no cycle** leaves the graph ranked: what reaches its
source is lifted above its target. -/
theorem ranked_link {next' : I → List I} {r : I → Nat} (hr : Ranked next r) {d e : I}
    (hnew : ∀ i, ∀ j ∈ next' i, j ∈ next i ∨ (i = d ∧ j = e)) (hacyclic : ¬ Reaches next e d) :
    ∃ r', Ranked next' r' := by
  classical
  refine ⟨fun i => r i + if Reaches next i d then r e + 1 else 0, ?_⟩
  intro i j hj
  rcases hnew i j hj with hj | ⟨rfl, rfl⟩
  · have hlt := hr i j hj
    by_cases hjd : Reaches next j d
    · have hid : Reaches next i d := (Reaches.step hj).trans hjd
      simp only [hjd, hid, if_true]
      omega
    · simp only [hjd, if_false]
      omega
  · have hself : Reaches next i i := Reaches.refl i
    simp only [hacyclic, hself, if_true, if_false]
    omega

end

end Inferno.Lib
