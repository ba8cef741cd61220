/-
  Inferno.UP.NextDescendants
  ──────────────────────────
  The next default tree patches below a patch.

    • `nextDescendants_lower` — when intents are taken away, the patches that lose theirs
                         give way to their next descendants,
    • `nextDescendants_congr` — they depend on which patches below have the default intent,
    • `windIn_nextDescendants` — they and what is below them lie apart in the walk,
    • `defaultBases_eq` — the default patches are these, and those below their children.
-/
import Inferno.UP.OrderingPass

namespace Inferno.UP

namespace Patch

variable {P : Type} {f g : Intents} {p q c : Patch P}

/-- The addresses of the patches of a list. -/
abbrev ptrs (ps : List (Patch P)) : List Nat := ps.map ptr

/-- The same tree patches of a list have the default intent. -/
def SameDefaults (f g : Intents) (ps : List (Patch P)) : Prop :=
  ∀ q ∈ ps, q.base?.isSome → (g q.ptr = .default ↔ f q.ptr = .default)

theorem SameDefaults.of_eq {ps : List (Patch P)} (h : ∀ a ∈ ptrs ps, g a = f a) :
    SameDefaults f g ps := by
  intro q hq _
  rw [h q.ptr (List.mem_map_of_mem hq)]

/-- The bases of the default tree patches of a list. -/
def defaultBases (f : Intents) (ps : List (Patch P)) : List Nat :=
  ps.filterMap fun p => if f p.ptr = .default then p.base? else none

theorem defaultBases_cons (p : Patch P) (ps : List (Patch P)) : defaultBases f (p :: ps)
    = (if f p.ptr = .default then p.base? else none).toList ++ defaultBases f ps := by
  unfold defaultBases
  rw [List.filterMap_cons]
  cases (if f p.ptr = .default then p.base? else none) <;> rfl

mutual

/-- A walk holds the walks of its patches. -/
theorem windIn_sublist : ∀ {p q : Patch P}, q ∈ p.windIn → q.windIn.Sublist p.windIn
  | .tree ptr zone intent originators cs, q, hq => by
      rw [windIn, List.mem_cons] at hq
      rcases hq with rfl | hq
      · exact List.Sublist.refl _
      · rw [windIn]
        exact (windInAll_sublist hq).cons _
  | .free ptr zone originators cs, q, hq => by
      rw [windIn, List.mem_cons] at hq
      rcases hq with rfl | hq
      · exact List.Sublist.refl _
      · rw [windIn]
        exact (windInAll_sublist hq).cons _

theorem windInAll_sublist : ∀ {cs : List (Patch P)} {q : Patch P}, q ∈ windInAll cs →
    q.windIn.Sublist (windInAll cs)
  | [], _, hq => absurd hq (by simp [windInAll])
  | c :: cs, q, hq => by
      rw [windInAll, List.mem_append] at hq
      rw [windInAll]
      rcases hq with hq | hq
      · exact (windIn_sublist hq).trans (List.sublist_append_left _ _)
      · exact (windInAll_sublist hq).trans (List.sublist_append_right _ _)

end

/-- The walk of a child is part of the walk of the children. -/
theorem child_sublist (hc : c ∈ p.children) : c.windIn.Sublist (windInAll p.children) :=
  windInAll_sublist (mem_windInAll.mpr ⟨c, hc, mem_windIn_self c⟩)

/-! ## §1. Default patches. -/

mutual

/-- The next descendants are default tree patches. -/
theorem mem_nextDescendants : ∀ {p r : Patch P}, r ∈ nextDescendants f p →
    f r.ptr = .default ∧ ∃ a, r.base? = some a
  | .tree ptr zone intent originators cs, r, h => by
      unfold nextDescendants at h
      by_cases hf : f ptr = .default
      · rw [if_pos hf] at h
        rw [List.mem_singleton.mp h]
        exact ⟨hf, zone.base, rfl⟩
      · rw [if_neg hf] at h
        exact mem_nextDescendantsAll h
  | .free ptr zone originators cs, r, h => by
      unfold nextDescendants at h
      exact mem_nextDescendantsAll h

theorem mem_nextDescendantsAll : ∀ {cs : List (Patch P)} {r : Patch P},
    r ∈ nextDescendantsAll f cs → f r.ptr = .default ∧ ∃ a, r.base? = some a
  | [], r, h => absurd h (by simp [nextDescendantsAll])
  | c :: cs, r, h => by
      unfold nextDescendantsAll at h
      rcases List.mem_append.mp h with h | h
      · exact mem_nextDescendants h
      · exact mem_nextDescendantsAll h

end

mutual

/-- **They and what is below them lie apart in the walk.** -/
theorem windIn_nextDescendants : ∀ p : Patch P,
    ((nextDescendants f p).flatMap windIn).Sublist p.windIn
  | .tree ptr zone intent originators cs => by
      unfold nextDescendants
      by_cases hf : f ptr = .default
      · rw [if_pos hf, List.flatMap_singleton]
      · rw [if_neg hf, windIn]
        exact (windIn_nextDescendantsAll cs).cons _
  | .free ptr zone originators cs => by
      unfold nextDescendants
      rw [windIn]
      exact (windIn_nextDescendantsAll cs).cons _

theorem windIn_nextDescendantsAll : ∀ cs : List (Patch P),
    ((nextDescendantsAll f cs).flatMap windIn).Sublist (windInAll cs)
  | [] => by simp [nextDescendantsAll, windInAll]
  | c :: cs => by
      unfold nextDescendantsAll windInAll
      rw [List.flatMap_append]
      exact (windIn_nextDescendants c).append (windIn_nextDescendantsAll cs)

end

theorem mem_windIn_of_nextDescendants {p r : Patch P} (h : r ∈ nextDescendants f p) :
    r ∈ p.windIn := by
  refine (windIn_nextDescendants p).subset (List.mem_flatMap.mpr ⟨r, h, ?_⟩)
  rw [windIn_eq]
  exact List.mem_cons_self

mutual

/-- **The default patches**: the next descendants, and those below their children. -/
theorem defaultBases_eq : ∀ p : Patch P, defaultBases f p.windIn
    = (nextDescendants f p).flatMap fun r =>
        r.base?.toList ++ defaultBases f (windInAll r.children)
  | .tree ptr zone intent originators cs => by
      unfold nextDescendants
      rw [windIn, defaultBases_cons]
      show (if f ptr = .default then some zone.base else none).toList ++ _ = _
      by_cases hf : f ptr = .default
      · rw [if_pos hf, if_pos hf, List.flatMap_singleton]
        rfl
      · rw [if_neg hf, if_neg hf, ← defaultBasesAll_eq cs]
        rfl
  | .free ptr zone originators cs => by
      unfold nextDescendants
      rw [windIn, defaultBases_cons, ← defaultBasesAll_eq cs]
      simp [base?]

theorem defaultBasesAll_eq : ∀ cs : List (Patch P), defaultBases f (windInAll cs)
    = (nextDescendantsAll f cs).flatMap fun r =>
        r.base?.toList ++ defaultBases f (windInAll r.children)
  | [] => by simp [nextDescendantsAll, windInAll, defaultBases]
  | c :: cs => by
      rw [nextDescendantsAll, windInAll, List.flatMap_append, ← defaultBases_eq c,
        ← defaultBasesAll_eq cs]
      exact List.filterMap_append

end

/-! ## §2. Other intents. -/

mutual

/-- **Taking intents away**: the patches that lose theirs give way to their next
descendants. -/
theorem nextDescendants_lower (h : ∀ a, f a ≠ .default → g a ≠ .default) : ∀ p : Patch P,
    nextDescendants g p = (nextDescendants f p).flatMap fun r =>
      if g r.ptr = .default then [r] else nextDescendantsAll g r.children
  | .tree ptr zone intent originators cs => by
      unfold nextDescendants
      by_cases hf : f ptr = .default
      · rw [if_pos hf, List.flatMap_singleton]
        rfl
      · rw [if_neg hf, if_neg (h ptr hf)]
        exact nextDescendantsAll_lower h cs
  | .free ptr zone originators cs => by
      unfold nextDescendants
      exact nextDescendantsAll_lower h cs

theorem nextDescendantsAll_lower (h : ∀ a, f a ≠ .default → g a ≠ .default) :
    ∀ cs : List (Patch P), nextDescendantsAll g cs = (nextDescendantsAll f cs).flatMap fun r =>
      if g r.ptr = .default then [r] else nextDescendantsAll g r.children
  | [] => by simp [nextDescendantsAll]
  | c :: cs => by
      rw [nextDescendantsAll, nextDescendantsAll, List.flatMap_append,
        nextDescendants_lower h c, nextDescendantsAll_lower h cs]

end

mutual

/-- **They depend on the intents of the patches below only.** -/
theorem nextDescendants_congr : ∀ {p : Patch P}, SameDefaults f g p.windIn →
    nextDescendants g p = nextDescendants f p
  | .tree ptr zone intent originators cs, h => by
      unfold nextDescendants
      rw [nextDescendantsAll_congr fun q hq => h q (List.mem_cons_of_mem _ hq)]
      exact if_congr (h _ List.mem_cons_self rfl) rfl rfl
  | .free ptr zone originators cs, h => by
      unfold nextDescendants
      exact nextDescendantsAll_congr fun q hq => h q (List.mem_cons_of_mem _ hq)

theorem nextDescendantsAll_congr : ∀ {cs : List (Patch P)},
    SameDefaults f g (windInAll cs) → nextDescendantsAll g cs = nextDescendantsAll f cs
  | [], _ => rfl
  | c :: cs, h => by
      unfold nextDescendantsAll
      unfold windInAll at h
      rw [nextDescendants_congr fun q hq => h q (List.mem_append_left _ hq),
        nextDescendantsAll_congr fun q hq => h q (List.mem_append_right _ hq)]

end

theorem defaultBases_congr {ps : List (Patch P)} (h : SameDefaults f g ps) :
    defaultBases g ps = defaultBases f ps := by
  unfold defaultBases
  refine List.filterMap_congr ?_
  intro p hp
  cases hbase : p.base? with
  | none => rw [ite_self, ite_self]
  | some a => exact if_congr (h p hp (by rw [hbase]; rfl)) rfl rfl

/-- When the next descendants keep their intents, they stay the next descendants. -/
theorem nextDescendants_keep (h : ∀ a, f a ≠ .default → g a ≠ .default) {p : Patch P}
    (hkeep : ∀ r ∈ nextDescendants f p, g r.ptr = .default) :
    nextDescendants g p = nextDescendants f p := by
  rw [nextDescendants_lower h p]
  have hsame : ∀ r ∈ nextDescendants f p,
      (if g r.ptr = .default then [r] else nextDescendantsAll g r.children) = [r] := by
    intro r hr
    exact if_pos (hkeep r hr)
  rw [List.flatMap_congr hsame]
  exact List.flatMap_singleton' _

end Patch

end Inferno.UP
