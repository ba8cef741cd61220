/-
  Inferno.Lang.UniqueNames
  ────────────────────────
  **WHEN THE UNIQUE NAMES ARE UNIQUE.**

    • `splitName_eq`    — no name is ever split: `%s` reads up to a space, so the `_`
                          that must come next never does,
    • `Treatment`       — what the loop does with a node, and under which base name,
    • `numbersFor`      — the numbers that the renamed nodes of a base name get,
    • `Named`           — the invariant of the loop over the nodes,
    • `unique_names_iff` — the names differ exactly when no numbered name is the name
                          of another node, and no renamed node comes first under the
                          name of a preserved one.
-/
import Inferno.Lang.UniquifyIdentifiers
import Mathlib.Order.Interval.Finset.Nat
import Mathlib.Data.List.Nodup

namespace Inferno.Lang

open Inferno.Common

/-! ## §1. The format. -/

/-- The numbers come back out of the format. -/
theorem ssprintfHint_inj {b c : Name} {n m : Nat} (h : ssprintfHint b n = ssprintfHint c m) :
    b = c ∧ n = m := by
  have hplain : ∀ k, ∀ ch ∈ (Nat.toDigits 10 k).reverse, decide (ch ≠ '_') = true := by
    intro k ch hch
    rw [decide_eq_true_eq]
    rintro rfl
    exact Nat.underscore_not_in_toDigits (List.mem_reverse.mp hch)
  -- read backwards, the digits end at the first underscore
  have hsplit : ∀ (a : Name) k, (ssprintfHint a k).reverse.takeWhile (· ≠ '_')
      = (Nat.toDigits 10 k).reverse := by
    intro a k
    rw [ssprintfHint, List.reverse_append, List.reverse_cons, List.append_assoc,
      List.takeWhile_append_of_pos (hplain k)]
    simp
  have hdigits : Nat.toDigits 10 n = Nat.toDigits 10 m := by
    rw [← List.reverse_inj, ← hsplit b, ← hsplit c, h]
  refine ⟨?_, ?_⟩
  · unfold ssprintfHint at h
    rw [hdigits] at h
    exact List.append_cancel_right h
  · rw [← Nat.ofDigitChars_ten_toDigits (n := n), hdigits, Nat.ofDigitChars_ten_toDigits]

theorem ssprintfHint_ne_nil (b : Name) (n : Nat) : ssprintfHint b n ≠ [] := by
  unfold ssprintfHint
  exact List.append_ne_nil_of_right_ne_nil b (List.cons_ne_nil _ _)

/-- **No name is ever split.** -/
theorem splitName_eq {name : Name} {r : Name × Nat} (h : splitName name = some r) :
    r = (name, if name = [] then 1 else 0) := by
  unfold splitName at h
  obtain ⟨⟨cb, n⟩, hscan, h⟩ := Option.bind_eq_some_iff.mp h
  have hn : n = none := by
    unfold sscanfHint at hscan
    simp only [ASSERT_bind_eq_some] at hscan
    obtain ⟨_, hscan⟩ := hscan
    split at hscan
    · cases hscan
      rfl
    · split at hscan
      next rest hrest =>
        -- what stops `%s` is a space
        have hspace := List.head_dropWhile_not (fun c => !isSpace c)
          (l := name.dropWhile isSpace) (by rw [hrest]; exact List.cons_ne_nil _ _)
        simp only [hrest, List.head_cons] at hspace
        exact absurd hspace (by decide)
      · cases hscan
        rfl
  subst hn
  cases cb <;> exact (Option.some.inj h).symm

/-- The name that `MakeUniqueName` makes. -/
def uniqueName (b : Name) (n : Nat) : Name := if n > 0 then ssprintfHint b n else b

theorem makeUniqueName_eq {b name : Name} {n : Nat} (h : makeUniqueName b n = some name) :
    name = uniqueName b n := by
  unfold makeUniqueName at h
  unfold uniqueName
  split at h
  next hn =>
    rw [if_pos hn]
    exact (Option.some.inj h).symm
  next hn =>
    rw [if_neg hn]
    rw [ASSERT_bind_eq_some] at h
    exact (Option.some.inj h.2).symm

/-- A base name is not a numbered name of its own. -/
theorem uniqueName_ne {b : Name} {n : Nat} (hn : 0 < n) : uniqueName b n ≠ b := by
  intro h
  unfold uniqueName at h
  rw [if_pos hn] at h
  have hlen := congrArg List.length h
  unfold ssprintfHint at hlen
  rw [List.length_append, List.length_cons] at hlen
  omega

/-- Two made names are equal only if one of them is a base name of the other's form. -/
theorem uniqueName_inj {b c : Name} {n m : Nat} (h : uniqueName b n = uniqueName c m) :
    (b = c ∧ n = m) ∨ (0 < n ∧ m = 0 ∧ uniqueName b n = c)
      ∨ (0 < m ∧ n = 0 ∧ uniqueName c m = b) := by
  rcases Nat.eq_zero_or_pos n with rfl | hn
  · rcases Nat.eq_zero_or_pos m with rfl | hm
    · exact Or.inl ⟨h, rfl⟩
    · exact Or.inr (Or.inr ⟨hm, rfl, h.symm⟩)
  · rcases Nat.eq_zero_or_pos m with rfl | hm
    · exact Or.inr (Or.inl ⟨hn, rfl, h⟩)
    · unfold uniqueName at h
      rw [if_pos hn, if_pos hm] at h
      exact Or.inl (ssprintfHint_inj h)

/-! ## §2. The numbers. -/

/-- Numbers used up to `e`: the next one is `e`. -/
theorem nextUnused_Ico {s e : Nat} : ∀ (fuel n : Nat), s ≤ n → n ≤ e → e < n + fuel →
    nextUnused (Finset.Ico s e) fuel n = e := by
  intro fuel
  induction fuel with
  | zero =>
      intro n _ hn hf
      omega
  | succ fuel ih =>
      intro n hs hn hf
      unfold nextUnused
      by_cases hmem : n ∈ Finset.Ico s e
      · rw [if_pos hmem]
        have hlt := (Finset.mem_Ico.mp hmem).2
        exact ih (n + 1) (by omega) (by omega) (by omega)
      · rw [if_neg hmem]
        rw [Finset.mem_Ico] at hmem
        omega

section

variable {Node : Type} [DecidableEq Node]

omit [DecidableEq Node] in
/-- The number assigned, and the numbers then used, are one more. -/
theorem assignNumber_Ico {nu : StdMap Nat Node} {s e : Nat} (hse : s ≤ e)
    (hkeys : nu.keys = Finset.Ico s e) (node : Node) :
    (assignNumber nu node s).2 = e ∧ (assignNumber nu node s).1.keys = Finset.Ico s (e + 1) := by
  have hnext : nextUnused nu.keys (nu.keys.card + 1) s = e := by
    rw [hkeys, Nat.card_Ico]
    exact nextUnused_Ico _ s (le_refl s) hse (by omega)
  have hout : e ∉ nu.keys := by
    rw [hkeys, Finset.mem_Ico]
    omega
  refine ⟨hnext, ?_⟩
  show (nu.insertNew (nextUnused nu.keys (nu.keys.card + 1) s) node).keys = _
  rw [hnext, StdMap.insertNew_of_notMem node hout, StdMap.keys_set, hkeys]
  ext k
  simp only [Finset.mem_insert, Finset.mem_Ico]
  omega

/-! ## §3. What becomes of a node. -/

/-- What the loop does with a node, and the base name it is filed under. -/
inductive Treatment where
  | skipped
  | preserved (base : Name)
  | renamed (base : Name)
deriving DecidableEq

variable (policy : Policy Node) (cx : Context Node)

/-- A preserved identifier without a name is skipped, and so is a node whose name
getter refuses. -/
def treatment (node : Node) : Treatment :=
  match isPreserved policy cx node, policy.nameGetter node with
  | true, some base => if cx.getIdentifierName node = [] then .skipped else .preserved base
  | false, some base => .renamed base
  | _, none => .skipped

/-- The node is filed under `b`. -/
def atBase (b : Name) (node : Node) : Bool :=
  decide (treatment policy cx node = .preserved b ∨ treatment policy cx node = .renamed b)

/-- How many nodes are renamed from `b`. -/
def renames (l : List Node) (b : Name) : Nat :=
  l.countP (fun node => decide (treatment policy cx node = .renamed b))

/-- Whether the first node filed under `b` is preserved. -/
def keptFirst (l : List Node) (b : Name) : Bool :=
  (l.find? (atBase policy cx b)).any (fun node => decide (treatment policy cx node = .preserved b))

/-- The first number given from `b`: 1 for unnamed nodes, and when the name itself is
taken by a preserved node. -/
def firstNumber (l : List Node) (b : Name) : Nat :=
  if b = [] ∨ keptFirst policy cx l b = true then 1 else 0

/-- **The numbers that the nodes renamed from `b` get.** -/
def numbersFor (l : List Node) (b : Name) : Finset Nat :=
  Finset.Ico (firstNumber policy cx l b) (firstNumber policy cx l b + renames policy cx l b)

/-- Where the numbers of `b` start, taken or given. -/
def startNumber (b : Name) : Nat := if b = [] then 1 else 0

omit [DecidableEq Node] in
theorem startNumber_le (l : List Node) (b : Name) :
    startNumber b ≤ firstNumber policy cx l b + renames policy cx l b := by
  unfold startNumber firstNumber
  by_cases hb : b = []
  · rw [if_pos hb, if_pos (Or.inl hb)]
    omega
  · rw [if_neg hb]
    omega

variable {policy cx}

/-! ## §4. One more node. -/

omit [DecidableEq Node] in
theorem renames_append {p : List Node} {x : Node} (b : Name) :
    renames policy cx (p ++ [x]) b
      = renames policy cx p b + if treatment policy cx x = .renamed b then 1 else 0 := by
  unfold renames
  rw [List.countP_append, List.countP_singleton]
  simp

omit [DecidableEq Node] in
theorem keptFirst_append {p : List Node} {x : Node} (b : Name) :
    keptFirst policy cx (p ++ [x]) b
      = if (p.find? (atBase policy cx b)).isSome then keptFirst policy cx p b
        else decide (treatment policy cx x = .preserved b) := by
  unfold keptFirst
  rw [List.find?_append]
  cases hfind : p.find? (atBase policy cx b) with
  | some y => simp
  | none =>
      by_cases hx : atBase policy cx b x = true
      · simp [hx]
      · have hne : treatment policy cx x ≠ .preserved b := by
          intro heq
          exact hx (decide_eq_true (Or.inl heq))
        simp [hx, hne]

omit [DecidableEq Node] in
/-- The first node under a base name is preserved, or it is renamed and counted. -/
theorem find?_isSome_iff {p : List Node} (b : Name) :
    (p.find? (atBase policy cx b)).isSome
      ↔ keptFirst policy cx p b = true ∨ 0 < renames policy cx p b := by
  constructor
  · intro h
    obtain ⟨y, hy⟩ := Option.isSome_iff_exists.mp h
    have hbase : atBase policy cx b y = true := List.find?_some hy
    rcases of_decide_eq_true hbase with hp | hr
    · refine Or.inl ?_
      unfold keptFirst
      rw [hy]
      exact decide_eq_true hp
    · refine Or.inr (List.countP_pos_iff.mpr ⟨y, List.mem_of_find?_eq_some hy, ?_⟩)
      exact decide_eq_true hr
  · intro h
    rcases h with h | h
    · unfold keptFirst at h
      cases hf : p.find? (atBase policy cx b) with
      | none =>
          rw [hf] at h
          cases h
      | some y => rfl
    · obtain ⟨y, hy, hr⟩ := List.countP_pos_iff.mp h
      rw [List.find?_isSome]
      exact ⟨y, hy, decide_eq_true (Or.inr (of_decide_eq_true hr))⟩

omit [DecidableEq Node] in
/-- A node not filed under `b` changes nothing there. -/
theorem numbers_append_other {p : List Node} {x : Node} {b : Name}
    (hx : atBase policy cx b x = false) :
    firstNumber policy cx (p ++ [x]) b = firstNumber policy cx p b
      ∧ renames policy cx (p ++ [x]) b = renames policy cx p b := by
  have hnot := of_decide_eq_false hx
  rw [not_or] at hnot
  constructor
  · unfold firstNumber
    rw [keptFirst_append]
    cases hf : (p.find? (atBase policy cx b)).isSome with
    | true => rfl
    | false =>
        have hk : keptFirst policy cx p b = false := by
          cases hk : keptFirst policy cx p b with
          | false => rfl
          | true =>
              rw [(find?_isSome_iff b).mpr (Or.inl hk)] at hf
              cases hf
        simp [hk, hnot.1]
  · rw [renames_append, if_neg hnot.2]
    rfl

omit [DecidableEq Node] in
/-- A renamed node gets the next number of its base name. -/
theorem numbers_append_renamed {p : List Node} {x : Node} {b : Name}
    (hx : treatment policy cx x = .renamed b) :
    firstNumber policy cx (p ++ [x]) b = firstNumber policy cx p b
      ∧ renames policy cx (p ++ [x]) b = renames policy cx p b + 1 := by
  constructor
  · unfold firstNumber
    rw [keptFirst_append]
    cases hf : (p.find? (atBase policy cx b)).isSome with
    | true => rfl
    | false =>
        have hk : keptFirst policy cx p b = false := by
          cases hk : keptFirst policy cx p b with
          | false => rfl
          | true =>
              rw [(find?_isSome_iff b).mpr (Or.inl hk)] at hf
              cases hf
        simp [hk, hx]
  · rw [renames_append, if_pos hx]

omit [DecidableEq Node] in
/-- A preserved node takes number 0 if it is the first of its base name. -/
theorem numbers_append_preserved {p : List Node} {x : Node} {b : Name}
    (hx : treatment policy cx x = .preserved b) :
    renames policy cx (p ++ [x]) b = renames policy cx p b
      ∧ keptFirst policy cx (p ++ [x]) b
        = if (p.find? (atBase policy cx b)).isSome then keptFirst policy cx p b else true := by
  constructor
  · rw [renames_append, hx, if_neg (by simp)]
    rfl
  · rw [keptFirst_append, hx]
    simp

/-! ## §5. The loop. -/

/-- **The invariant of the loop** over the nodes `p` visited so far. -/
structure Named (policy : Policy Node) (cx : Context Node) (p : List Node)
    (u : Uniquifier Node) : Prop where
  present : ∀ b, (u.nameGen.lookup b).isSome ↔ (p.find? (atBase policy cx b)).isSome
  used : ∀ b nu, u.nameGen.lookup b = some nu → nu.keys
    = Finset.Ico (startNumber b) (firstNumber policy cx p b + renames policy cx p b)
  kept : ∀ x ∈ p, ∀ b, treatment policy cx x = .preserved b →
    u.nodesToNames.lookup x = some (cx.getIdentifierName x)
  given : ∀ x ∈ p, ∀ b, treatment policy cx x = .renamed b →
    ∃ n ∈ numbersFor policy cx p b, u.nodesToNames.lookup x = some (uniqueName b n)
  onto : ∀ b, ∀ n ∈ numbersFor policy cx p b, ∃ x ∈ p, treatment policy cx x = .renamed b
    ∧ u.nodesToNames.lookup x = some (uniqueName b n)
  apart : ∀ x ∈ p, ∀ y ∈ p, ∀ b, treatment policy cx x = .renamed b →
    treatment policy cx y = .renamed b →
    u.nodesToNames.lookup x = u.nodesToNames.lookup y → x = y
  only : ∀ x name, u.nodesToNames.lookup x = some name →
    x ∈ p ∧ treatment policy cx x ≠ .skipped

omit [DecidableEq Node] in
theorem named_nil : Named policy cx [] ⟨StdMap.empty, StdMap.empty⟩ := by
  refine ⟨fun b => Iff.rfl, ?_, ?_, ?_, ?_, ?_, ?_⟩
  · intro b nu h
    cases h
  · intro x hx
    cases hx
  · intro x hx
    cases hx
  · intro b n hn
    have hn' : n ∈ Finset.Ico (firstNumber policy cx [] b) (firstNumber policy cx [] b + 0) := hn
    rw [Finset.mem_Ico] at hn'
    omega
  · intro x hx
    cases hx
  · intro x name h
    cases h

omit [DecidableEq Node] in
/-- Before any node is filed under `b`, the next number is its first. -/
theorem next_of_absent {p : List Node} {b : Name}
    (h : (p.find? (atBase policy cx b)).isSome = false) :
    firstNumber policy cx p b + renames policy cx p b = startNumber b := by
  have hnot : ¬ (keptFirst policy cx p b = true ∨ 0 < renames policy cx p b) := by
    rw [← find?_isSome_iff, h]
    exact Bool.false_ne_true
  rw [not_or] at hnot
  unfold firstNumber startNumber
  have hr : renames policy cx p b = 0 := by omega
  simp [hnot.1, hr]

omit [DecidableEq Node] in
/-- `AddNode` gives the next number, and files it. -/
theorem Named.addNode {p : List Node} {u : Uniquifier Node} (h : Named policy cx p u)
    {node : Node} {b name : Name} {gen : UniqueNameGenerator Node}
    (hadd : addNode u.nameGen node b = some (gen, name)) :
    name = uniqueName b (firstNumber policy cx p b + renames policy cx p b)
      ∧ (∀ c, c ≠ b → gen.lookup c = u.nameGen.lookup c)
      ∧ ∃ nu, gen.lookup b = some nu ∧ nu.keys
          = Finset.Ico (startNumber b) (firstNumber policy cx p b + renames policy cx p b + 1) := by
  unfold Lang.addNode at hadd
  obtain ⟨r, hsplit, hadd⟩ := Option.bind_eq_some_iff.mp hadd
  have hr := splitName_eq hsplit
  subst hr
  have hstart : (if b = [] then 1 else 0) = startNumber b := rfl
  dsimp only at hadd
  rw [hstart] at hadd
  cases hlook : u.nameGen.lookup b with
  -- the base name has been filed: its next number
  | some nu =>
      rw [hlook] at hadd
      obtain ⟨hn, hkeys⟩ := assignNumber_Ico (startNumber_le policy cx p b) (h.used b nu hlook) node
      obtain ⟨name', hname, hadd⟩ := Option.bind_eq_some_iff.mp hadd
      cases hadd
      refine ⟨?_, ?_, _, ?_, hkeys⟩
      · rw [← hn]
        exact makeUniqueName_eq hname
      · intro c hc
        rw [StdMap.lookup_set, if_neg hc]
      · rw [StdMap.lookup_set, if_pos rfl]
  | none =>
      rw [hlook] at hadd
      -- a new base name: its first number
      have habsent : (p.find? (atBase policy cx b)).isSome = false := by
        rw [Bool.eq_false_iff, Ne, ← h.present, hlook]
        exact Bool.false_ne_true
      rw [next_of_absent habsent]
      have hempty : (StdMap.empty : StdMap Nat Node).keys
          = Finset.Ico (startNumber b) (startNumber b) := (Finset.Ico_self _).symm
      obtain ⟨hn, hkeys⟩ := assignNumber_Ico (le_refl (startNumber b)) hempty node
      obtain ⟨name', hname, hadd⟩ := Option.bind_eq_some_iff.mp hadd
      cases hadd
      rw [StdMap.insertNew_of_notMem _ (StdMap.lookup_eq_none.mp hlook)]
      refine ⟨?_, ?_, _, ?_, hkeys⟩
      · rw [← hn]
        exact makeUniqueName_eq hname
      · intro c hc
        rw [StdMap.lookup_set, if_neg hc]
      · rw [StdMap.lookup_set, if_pos rfl]

omit [DecidableEq Node] in
/-- `AddNodeNoRename` files number 0, unless the base name has been filed already. -/
theorem addNodeNoRename_spec {nameUsages gen : UniqueNameGenerator Node} {node : Node} {b : Name}
    (hadd : addNodeNoRename nameUsages node b = some gen) :
    b ≠ [] ∧ (∀ c, c ≠ b → gen.lookup c = nameUsages.lookup c)
      ∧ ∃ nu, gen.lookup b = some nu
        ∧ (nameUsages.lookup b = some nu
          ∨ nameUsages.lookup b = none ∧ nu.keys = Finset.Ico 0 1) := by
  unfold addNodeNoRename at hadd
  rw [ASSERT_bind_eq_some] at hadd
  obtain ⟨hne, hadd⟩ := hadd
  obtain ⟨r, hsplit, hadd⟩ := Option.bind_eq_some_iff.mp hadd
  have hr := splitName_eq hsplit
  subst hr
  rw [if_neg hne] at hadd
  cases hadd
  refine ⟨hne, ?_⟩
  -- the base name may have been filed before
  cases hlook : nameUsages.lookup b with
  | some nu =>
      have hin : b ∈ nameUsages.keys := StdMap.mem_keys_of_lookup hlook
      have hsame : ∀ nu', nameUsages.insertNew b nu' = nameUsages := fun nu' => if_pos hin
      rw [hsame]
      exact ⟨fun c _ => rfl, nu, hlook, Or.inl rfl⟩
  -- and else number 0 is the first of an empty interval
  | none =>
      have hempty : (StdMap.empty : StdMap Nat Node).keys = Finset.Ico 0 0 :=
        (Finset.Ico_self _).symm
      obtain ⟨_, hkeys⟩ := assignNumber_Ico (le_refl 0) hempty node
      rw [StdMap.insertNew_of_notMem _ (StdMap.lookup_eq_none.mp hlook)]
      refine ⟨?_, _, ?_, Or.inr ⟨rfl, hkeys⟩⟩
      · intro c hc
        rw [StdMap.lookup_set, if_neg hc]
      · exact if_pos rfl

omit [DecidableEq Node] in
/-- A skipped node changes nothing. -/
theorem Named.skip {p : List Node} {u : Uniquifier Node} (h : Named policy cx p u) {x : Node}
    (hx : treatment policy cx x = .skipped) : Named policy cx (p ++ [x]) u := by
  have hbase : ∀ b, atBase policy cx b x = false := by
    intro b
    unfold atBase
    rw [hx]
    simp
  -- the numbers are those before
  have hnumbers : ∀ b, numbersFor policy cx (p ++ [x]) b = numbersFor policy cx p b := by
    intro b
    unfold numbersFor
    rw [(numbers_append_other (hbase b)).1, (numbers_append_other (hbase b)).2]
  have hmem : ∀ y ∈ p ++ [x], ∀ b, (treatment policy cx y = .preserved b
      ∨ treatment policy cx y = .renamed b) → y ∈ p := by
    intro y hy b hty
    rcases List.mem_append.mp hy with hy | hy
    · exact hy
    · rw [List.mem_singleton.mp hy, hx] at hty
      simp at hty
  refine ⟨?_, ?_, ?_, ?_, ?_, ?_, ?_⟩
  · intro b
    rw [h.present, List.find?_append]
    simp [hbase b]
  · intro b nu hnu
    rw [(numbers_append_other (hbase b)).1, (numbers_append_other (hbase b)).2]
    exact h.used b nu hnu
  · intro y hy b hty
    exact h.kept y (hmem y hy b (Or.inl hty)) b hty
  · intro y hy b hty
    rw [hnumbers]
    exact h.given y (hmem y hy b (Or.inr hty)) b hty
  · intro b n hn
    rw [hnumbers] at hn
    obtain ⟨y, hy, hrest⟩ := h.onto b n hn
    exact ⟨y, List.mem_append_left _ hy, hrest⟩
  · intro y hy z hz b hty htz heq
    exact h.apart y (hmem y hy b (Or.inr hty)) z (hmem z hz b (Or.inr htz)) b hty htz heq
  · intro y name hname
    obtain ⟨hy, hty⟩ := h.only y name hname
    exact ⟨List.mem_append_left _ hy, hty⟩

omit [DecidableEq Node] in
/-- The other base names do not see the node. -/
theorem atBase_other {x : Node} {b c : Name}
    (hx : treatment policy cx x = .preserved b ∨ treatment policy cx x = .renamed b)
    (hc : c ≠ b) : atBase policy cx c x = false := by
  unfold atBase
  rcases hx with hx | hx <;>
    rw [hx] <;>
    simp [Ne.symm hc]

omit [DecidableEq Node] in
/-- A base name is filed as soon as one of its nodes is met. -/
theorem Named.present_append {p : List Node} {u : Uniquifier Node} (h : Named policy cx p u)
    {x : Node} {b : Name}
    (hx : treatment policy cx x = .preserved b ∨ treatment policy cx x = .renamed b)
    {gen : UniqueNameGenerator Node} {nu : StdMap Nat Node} (hnu : gen.lookup b = some nu)
    (hother : ∀ c, c ≠ b → gen.lookup c = u.nameGen.lookup c) (c : Name) :
    (gen.lookup c).isSome ↔ ((p ++ [x]).find? (atBase policy cx c)).isSome := by
  rw [List.find?_append]
  by_cases hc : c = b
  · subst hc
    have hthis : atBase policy cx c x = true := decide_eq_true hx
    rw [hnu]
    simp [hthis]
  · rw [hother c hc, h.present]
    simp [atBase_other hx hc]

/-- The node is new, so filing it overwrites no name. -/
theorem Named.lookup_insertNew {p : List Node} {u : Uniquifier Node} (h : Named policy cx p u)
    {x : Node} (hnew : x ∉ p) (name : Name) (y : Node) :
    (u.nodesToNames.insertNew x name).lookup y
      = if y = x then some name else u.nodesToNames.lookup y := by
  have hfresh : x ∉ u.nodesToNames.keys := by
    intro hin
    obtain ⟨name', hname'⟩ := StdMap.exists_of_mem_keys hin
    exact hnew (h.only x name' hname').1
  rw [StdMap.insertNew_of_notMem _ hfresh, StdMap.lookup_set]

/-- Nothing but the nodes of the loop is named. -/
theorem Named.only_insertNew {p : List Node} {u : Uniquifier Node} (h : Named policy cx p u)
    {x : Node} (hnew : x ∉ p) (hx : treatment policy cx x ≠ .skipped) {name : Name} {y : Node}
    {name' : Name} (hname : (u.nodesToNames.insertNew x name).lookup y = some name') :
    y ∈ p ++ [x] ∧ treatment policy cx y ≠ .skipped := by
  rw [h.lookup_insertNew hnew] at hname
  by_cases hyx : y = x
  · rw [hyx]
    exact ⟨List.mem_append_right _ (List.mem_singleton_self x), hx⟩
  · rw [if_neg hyx] at hname
    obtain ⟨hy, hty⟩ := h.only y name' hname
    exact ⟨List.mem_append_left _ hy, hty⟩

/-- A preserved node keeps its name; it takes number 0 if it is the first of its base. -/
theorem Named.preserve {p : List Node} {u : Uniquifier Node} (h : Named policy cx p u) {x : Node}
    {b : Name} (hx : treatment policy cx x = .preserved b) (hnew : x ∉ p)
    {gen : UniqueNameGenerator Node} (hadd : addNodeNoRename u.nameGen x b = some gen) :
    Named policy cx (p ++ [x])
      ⟨gen, u.nodesToNames.insertNew x (cx.getIdentifierName x)⟩ := by
  obtain ⟨hne, hother, nu, hnu, hnukeys⟩ := addNodeNoRename_spec hadd
  have hlook := h.lookup_insertNew hnew (cx.getIdentifierName x)
  have hbase : ∀ c, c ≠ b → atBase policy cx c x = false := fun c => atBase_other (Or.inl hx)
  have hrenames : ∀ c, renames policy cx (p ++ [x]) c = renames policy cx p c := by
    intro c
    by_cases hc : c = b
    · exact hc ▸ (numbers_append_preserved hx).1
    · exact (numbers_append_other (hbase c hc)).2
  -- a base name that has been filed keeps its first number
  have hfirst : ∀ c, (p.find? (atBase policy cx c)).isSome →
      firstNumber policy cx (p ++ [x]) c = firstNumber policy cx p c := by
    intro c hc
    unfold firstNumber
    rw [keptFirst_append, if_pos hc]
  have hnumbers : ∀ c, numbersFor policy cx (p ++ [x]) c = numbersFor policy cx p c := by
    intro c
    unfold numbersFor
    rw [hrenames]
    cases hc : (p.find? (atBase policy cx c)).isSome with
    | true => rw [hfirst c hc]
    | false =>
        have hzero : renames policy cx p c = 0 := by
          by_contra hpos
          have hsome := (find?_isSome_iff c).mpr (Or.inr (Nat.pos_of_ne_zero hpos))
          rw [hc] at hsome
          cases hsome
        rw [hzero, Nat.add_zero, Nat.add_zero, Finset.Ico_self, Finset.Ico_self]
  have hrenamed : ∀ y ∈ p ++ [x], ∀ c, treatment policy cx y = .renamed c → y ∈ p ∧ y ≠ x := by
    intro y hy c hty
    have hyx : y ≠ x := by
      rintro rfl
      rw [hx] at hty
      cases hty
    rcases List.mem_append.mp hy with hy | hy
    · exact ⟨hy, hyx⟩
    · exact absurd (List.mem_singleton.mp hy) hyx
  refine ⟨h.present_append (Or.inl hx) hnu hother, ?_, ?_, ?_, ?_, ?_, ?_⟩
  · intro c nu' hnu'
    rw [hrenames]
    by_cases hc : c = b
    · subst hc
      rw [hnu, Option.some.injEq] at hnu'
      subst hnu'
      -- the number 0 is used up if the base name is filed now, and not used again
      rcases hnukeys with hold | ⟨hnone, hkeys⟩
      · have hsome : (p.find? (atBase policy cx c)).isSome := by
          rw [← h.present, hold]
          rfl
        rw [hfirst c hsome]
        exact h.used c nu hold
      · have habsent : (p.find? (atBase policy cx c)).isSome = false := by
          rw [Bool.eq_false_iff, Ne, ← h.present, hnone]
          exact Bool.false_ne_true
        have hnext := next_of_absent habsent
        have hstart : startNumber c = 0 := if_neg hne
        have hkept : firstNumber policy cx (p ++ [x]) c = 1 := by
          unfold firstNumber
          rw [keptFirst_append, habsent, hx]
          simp
        rw [hkeys, hkept, hstart]
        rw [hstart] at hnext
        congr 1
        omega
    · rw [hother c hc] at hnu'
      rw [(numbers_append_other (hbase c hc)).1]
      exact h.used c nu' hnu'
  · -- the preserved nodes keep their names, and `x` has its own
    intro y hy c hty
    rw [hlook]
    by_cases hyx : y = x
    · rw [if_pos hyx, hyx]
    · rw [if_neg hyx]
      rcases List.mem_append.mp hy with hy | hy
      · exact h.kept y hy c hty
      · exact absurd (List.mem_singleton.mp hy) hyx
  · -- the renamed nodes are among those before `x`, where nothing has changed
    intro y hy c hty
    obtain ⟨hyp, hyx⟩ := hrenamed y hy c hty
    rw [hnumbers, hlook, if_neg hyx]
    exact h.given y hyp c hty
  · intro c n hn
    rw [hnumbers] at hn
    obtain ⟨y, hy, hty, hname⟩ := h.onto c n hn
    refine ⟨y, List.mem_append_left _ hy, hty, ?_⟩
    rw [hlook, if_neg (hrenamed y (List.mem_append_left _ hy) c hty).2]
    exact hname
  · intro y hy z hz c hty htz heq
    obtain ⟨hyp, hyx⟩ := hrenamed y hy c hty
    obtain ⟨hzp, hzx⟩ := hrenamed z hz c htz
    rw [hlook, hlook, if_neg hyx, if_neg hzx] at heq
    exact h.apart y hyp z hzp c hty htz heq
  · intro y name
    refine h.only_insertNew hnew ?_
    rw [hx]
    exact Treatment.noConfusion

/-- A renamed node gets the next number of its base name. -/
theorem Named.rename {p : List Node} {u : Uniquifier Node} (h : Named policy cx p u) {x : Node}
    {b name : Name} (hx : treatment policy cx x = .renamed b) (hnew : x ∉ p)
    {gen : UniqueNameGenerator Node} (hadd : Lang.addNode u.nameGen x b = some (gen, name)) :
    Named policy cx (p ++ [x]) ⟨gen, u.nodesToNames.insertNew x name⟩ := by
  obtain ⟨hname, hother, nu, hnu, hnukeys⟩ := h.addNode hadd
  obtain ⟨hfirst, hrenames⟩ := numbers_append_renamed (p := p) hx
  have hlook := h.lookup_insertNew hnew name
  have hbase : ∀ c, c ≠ b → atBase policy cx c x = false := fun c => atBase_other (Or.inr hx)
  have hsame : ∀ c, c ≠ b → numbersFor policy cx (p ++ [x]) c = numbersFor policy cx p c := by
    intro c hc
    unfold numbersFor
    rw [(numbers_append_other (hbase c hc)).1, (numbers_append_other (hbase c hc)).2]
  -- the numbers of the base name grow by the next one
  have hmore : ∀ n, n ∈ numbersFor policy cx (p ++ [x]) b ↔ n ∈ numbersFor policy cx p b
      ∨ n = firstNumber policy cx p b + renames policy cx p b := by
    intro n
    unfold numbersFor
    rw [hfirst, hrenames, Finset.mem_Ico, Finset.mem_Ico]
    omega
  have hold : ∀ y ∈ p, y ≠ x := fun y hy heq => hnew (heq ▸ hy)
  have hlast : ∀ y ∈ p ++ [x], y ∈ p ∨ y = x := by
    intro y hy
    exact (List.mem_append.mp hy).imp id List.mem_singleton.mp
  -- the numbers already given are smaller
  have hdiffer : ∀ y ∈ p, treatment policy cx y = .renamed b →
      u.nodesToNames.lookup y ≠ some name := by
    intro y hy hty heq
    obtain ⟨n, hn, hyname⟩ := h.given y hy b hty
    rw [hyname, Option.some.injEq, hname] at heq
    have hlt := (Finset.mem_Ico.mp hn).2
    rcases uniqueName_inj heq with ⟨_, hnum⟩ | ⟨_, hm, _⟩ | ⟨hm, _, hform⟩
    · omega
    · omega
    · exact uniqueName_ne hm hform
  refine ⟨h.present_append (Or.inr hx) hnu hother, ?_, ?_, ?_, ?_, ?_, ?_⟩
  · -- what is used of the base name grows with the numbers, and of no other
    intro c nu' hnu'
    by_cases hc : c = b
    · subst hc
      rw [hnu, Option.some.injEq] at hnu'
      subst hnu'
      rw [hnukeys, hfirst, hrenames]
      rfl
    · rw [hother c hc] at hnu'
      rw [(numbers_append_other (hbase c hc)).1, (numbers_append_other (hbase c hc)).2]
      exact h.used c nu' hnu'
  · intro y hy c hty
    rcases hlast y hy with hyp | rfl
    · rw [hlook, if_neg (hold y hyp)]
      exact h.kept y hyp c hty
    · rw [hx] at hty
      cases hty
  · -- an old node keeps its number, and `x` has the next one
    intro y hy c hty
    rcases hlast y hy with hyp | rfl
    · obtain ⟨n, hn, hyname⟩ := h.given y hyp c hty
      refine ⟨n, ?_, by rw [hlook, if_neg (hold y hyp), hyname]⟩
      by_cases hc : c = b
      · subst hc
        exact (hmore n).mpr (Or.inl hn)
      · rw [hsame c hc]
        exact hn
    · rw [hx] at hty
      cases hty
      exact ⟨_, (hmore _).mpr (Or.inr rfl), by rw [hlook, if_pos rfl, hname]⟩
  · -- and the next number is the one of `x`
    intro c n hn
    by_cases hc : c = b
    · subst hc
      rcases (hmore n).mp hn with hn | rfl
      · obtain ⟨y, hy, hty, hyname⟩ := h.onto c n hn
        exact ⟨y, List.mem_append_left _ hy, hty, by rw [hlook, if_neg (hold y hy), hyname]⟩
      · exact ⟨x, List.mem_append_right _ (List.mem_singleton.mpr rfl), hx,
          by rw [hlook, if_pos rfl, hname]⟩
    · rw [hsame c hc] at hn
      obtain ⟨y, hy, hty, hyname⟩ := h.onto c n hn
      exact ⟨y, List.mem_append_left _ hy, hty, by rw [hlook, if_neg (hold y hy), hyname]⟩
  · -- two nodes of one name: an old one and `x` differ by their numbers
    intro y hy z hz c hty htz heq
    rw [hlook, hlook] at heq
    rcases hlast y hy with hyp | rfl
    · rcases hlast z hz with hzp | rfl
      · rw [if_neg (hold y hyp), if_neg (hold z hzp)] at heq
        exact h.apart y hyp z hzp c hty htz heq
      · rw [hx] at htz
        cases htz
        rw [if_neg (hold y hyp), if_pos rfl] at heq
        exact absurd heq (hdiffer y hyp hty)
    · rcases hlast z hz with hzp | rfl
      · rw [hx] at hty
        cases hty
        rw [if_pos rfl, if_neg (hold z hzp)] at heq
        exact absurd heq.symm (hdiffer z hzp htz)
      · rfl
  · intro y name'
    refine h.only_insertNew hnew ?_
    rw [hx]
    exact Treatment.noConfusion

/-- **One pass of the loop.** -/
theorem Named.uniquifyNode {p : List Node} {u u' : Uniquifier Node} (h : Named policy cx p u)
    {x : Node} (hnew : x ∉ p) (hstep : Lang.uniquifyNode policy cx u x = some u') :
    Named policy cx (p ++ [x]) u' := by
  unfold Lang.uniquifyNode at hstep
  cases hpres : isPreserved policy cx x with
  | true =>
      rw [if_pos hpres] at hstep
      unfold preserveNode at hstep
      -- preserved: a node with no name is skipped
      by_cases hid : cx.getIdentifierName x = []
      · rw [if_pos hid, Option.some.injEq] at hstep
        subst hstep
        refine h.skip ?_
        unfold treatment
        rw [hpres]
        cases policy.nameGetter x <;> simp [hid]
      · rw [if_neg hid] at hstep
        obtain ⟨b, hget, hstep⟩ := Option.bind_eq_some_iff.mp hstep
        obtain ⟨gen, hadd, hstep⟩ := Option.bind_eq_some_iff.mp hstep
        cases hstep
        refine h.preserve ?_ hnew hadd
        unfold treatment
        rw [hpres, hget]
        exact if_neg hid
  | false =>
      rw [if_neg (by rw [hpres]; exact Bool.false_ne_true)] at hstep
      unfold renameNode at hstep
      -- renamed: a node that the policy has no name for is skipped
      cases hget : policy.nameGetter x with
      | none =>
          rw [hget] at hstep
          cases hstep
          refine h.skip ?_
          unfold treatment
          rw [hpres, hget]
      | some b =>
          rw [hget] at hstep
          obtain ⟨⟨gen, name⟩, hadd, hstep⟩ := Option.bind_eq_some_iff.mp hstep
          dsimp only at hstep
          rw [ASSERT_bind_eq_some] at hstep
          cases hstep.2
          refine h.rename ?_ hnew hadd
          unfold treatment
          rw [hpres, hget]

/-- The whole loop. -/
theorem Named.foldlM : ∀ (q : List Node) {p : List Node} {u u' : Uniquifier Node},
    Named policy cx p u → (p ++ q).Nodup → q.foldlM (Lang.uniquifyNode policy cx) u = some u' →
    Named policy cx (p ++ q) u' := by
  intro q
  induction q with
  | nil =>
      intro p u u' h _ hrun
      cases hrun
      rw [List.append_nil]
      exact h
  | cons x q ih =>
      intro p u u' h hnd hrun
      obtain ⟨u₁, hstep, hrun⟩ := Option.bind_eq_some_iff.mp hrun
      have hnew : x ∉ p := by
        intro hx
        exact (List.nodup_append.mp hnd).2.2 x hx x List.mem_cons_self rfl
      rw [List.append_cons] at hnd ⊢
      exact ih (h.uniquifyNode hnew hstep) hnd hrun

/-! ## §6. The main theorem. -/

variable (policy cx) in
/-- **The names are unique**: different nodes have different names, unless both are
undeclared identifiers preserved under their own name. -/
def NamesUnique (names : StdMap Node Name) : Prop :=
  ∀ x y name, x ≠ y → names.lookup x = some name → names.lookup y = some name →
    isPreserved policy cx x = true ∧ isPreserved policy cx y = true

variable (policy cx) in
/-- **The condition**, on the nodes and the names they have: no name given from a base
name `b` is the name of a preserved node, and none that was numbered is given again, as
the unnumbered name of the first node that has it. -/
def NumbersApart (l : List Node) : Prop :=
  ∀ b, ∀ n ∈ numbersFor policy cx l b,
    (∀ x ∈ l, ∀ c, treatment policy cx x = .preserved c →
      cx.getIdentifierName x ≠ uniqueName b n)
    ∧ (0 < n → 0 ∉ numbersFor policy cx l (uniqueName b n))

omit [DecidableEq Node] in
theorem isPreserved_of_treatment {x : Node} {b : Name} :
    (treatment policy cx x = .preserved b → isPreserved policy cx x = true)
      ∧ (treatment policy cx x = .renamed b → isPreserved policy cx x = false) := by
  unfold treatment
  cases isPreserved policy cx x with
  | true =>
      refine ⟨fun _ => rfl, ?_⟩
      cases policy.nameGetter x with
      | none => simp
      | some c =>
          dsimp only
          split <;> simp
  | false =>
      refine ⟨?_, fun _ => rfl⟩
      cases policy.nameGetter x <;> simp

omit [DecidableEq Node] in
/-- What the loop leaves is unique exactly when the numbers are apart. -/
theorem Named.unique_iff {l : List Node} {u : Uniquifier Node} (h : Named policy cx l u) :
    NamesUnique policy cx u.nodesToNames ↔ NumbersApart policy cx l := by
  constructor
  · -- a renamed node that shares a name would have to be preserved
    intro hunique b n hn
    obtain ⟨x, hx, htx, hxname⟩ := h.onto b n hn
    have hxren := isPreserved_of_treatment.2 htx
    constructor
    · intro y hy c hty heq
      have hyname := h.kept y hy c hty
      rw [heq] at hyname
      have hne : x ≠ y := by
        rintro rfl
        rw [htx] at hty
        cases hty
      have hpres := (hunique x y _ hne hxname hyname).1
      rw [hxren] at hpres
      cases hpres
    · -- nor has the form with no number a base name of its own
      intro hpos hzero
      obtain ⟨y, hy, hty, hyname⟩ := h.onto _ 0 hzero
      have hne : x ≠ y := by
        rintro rfl
        rw [htx, Treatment.renamed.injEq] at hty
        exact uniqueName_ne hpos hty.symm
      have hpres := (hunique x y _ hne hxname hyname).1
      rw [hxren] at hpres
      cases hpres
  · -- two nodes of one name: by cases on what was done with them
    intro hapart x y name hne hxname hyname
    obtain ⟨hx, htx⟩ := h.only x name hxname
    obtain ⟨hy, hty⟩ := h.only y name hyname
    cases htx' : treatment policy cx x with
    | skipped => exact absurd htx' htx
    | preserved b =>
        cases hty' : treatment policy cx y with
        | skipped => exact absurd hty' hty
        | preserved c =>
            exact ⟨isPreserved_of_treatment.1 htx', isPreserved_of_treatment.1 hty'⟩
        | renamed c =>
            obtain ⟨m, hm, hgiven⟩ := h.given y hy c hty'
            have hkept := h.kept x hx b htx'
            rw [hxname, Option.some.injEq] at hkept
            rw [hyname, Option.some.injEq] at hgiven
            -- a preserved name and a given number are apart
            exact absurd (hkept.symm.trans hgiven) ((hapart c m hm).1 x hx b htx')
    | renamed b =>
        obtain ⟨n, hn, hgivenx⟩ := h.given x hx b htx'
        rw [hxname, Option.some.injEq] at hgivenx
        cases hty' : treatment policy cx y with
        | skipped => exact absurd hty' hty
        | preserved c =>
            have hkept := h.kept y hy c hty'
            rw [hyname, Option.some.injEq] at hkept
            exact absurd (hkept.symm.trans hgivenx) ((hapart b n hn).1 y hy c hty')
        | renamed c =>
            obtain ⟨m, hm, hgiveny⟩ := h.given y hy c hty'
            rw [hyname, Option.some.injEq] at hgiveny
            -- two given numbers: the base names may only differ in the form without a number
            rcases uniqueName_inj (hgivenx.symm.trans hgiveny) with
              ⟨hbc, _⟩ | ⟨hpos, hzero, hform⟩ | ⟨hpos, hzero, hform⟩
            · subst hbc
              exact absurd (h.apart x hx y hy b htx' hty' (hxname.trans hyname.symm)) hne
            · rw [hzero, ← hform] at hm
              exact absurd hm ((hapart b n hn).2 hpos)
            · rw [hzero, ← hform] at hn
              exact absurd hn ((hapart c m hm).2 hpos)

/-- **The unique names are unique** exactly when no name given from a base name is the
name of a preserved identifier, or, numbered, the name of another identifier. -/
theorem unique_names_iff {nodeSetsByFp : List (Finset Int × List Node)}
    {names : StdMap Node Name} (hnd : (nodeSetsByFp.flatMap Prod.snd).Nodup)
    (hrun : uniquifyAll policy cx nodeSetsByFp = some names) :
    NamesUnique policy cx names
      ↔ NumbersApart policy cx (nodesInDfpo policy cx nodeSetsByFp) := by
  obtain ⟨u, hloop, hnames⟩ := Option.bind_eq_some_iff.mp hrun
  cases hnames
  have hsub : ∀ sets : List (Finset Int × List Node),
      (nodesInDfpo policy cx sets).Sublist (sets.flatMap Prod.snd) := by
    intro sets
    induction sets with
    | nil => exact List.Sublist.refl _
    | cons p sets ih =>
        unfold nodesInDfpo
        rw [List.flatMap_cons, List.flatMap_cons]
        exact List.Sublist.append List.filter_sublist ih
  have hnd' : ([] ++ nodesInDfpo policy cx nodeSetsByFp).Nodup := hnd.sublist (hsub _)
  exact (Named.foldlM _ named_nil hnd' hloop).unique_iff

end

/-- The policy of the C++ renderer, on nodes with the given names. -/
def identifierPolicy (names : List Name) : Policy Nat where
  nameGetter node := names[node]?
  includeSingleParent := true
  includeMultiParent := true
  includeDesignationNamedIdentifiers := false
  preserveUndeclaredIds := true

/-- Identifiers with the given names, some of them declared. -/
def identifiers (names : List Name) (declared : List Nat) : Context Nat where
  isDesignationNamedIdentifier _ := true
  isSpecificIdentifier _ := true
  isDeclared node := decide (node ∈ declared)
  getIdentifierName node := names.getD node []

/-- Each node alone at its place in the tree. -/
def onePlaceEach (l : List Nat) : List (Finset Int × List Nat) :=
  l.map (fun node : Nat => (({(node : Int)} : Finset Int), [node]))

/-- Two identifiers called x and one called y. -/
theorem unique_names_iff_xxy :
    ∃ names, uniquifyAll (identifierPolicy [['x'], ['x'], ['y']])
        (identifiers [['x'], ['x'], ['y']] [0, 1, 2]) (onePlaceEach [0, 1, 2]) = some names
      ∧ (NamesUnique (identifierPolicy [['x'], ['x'], ['y']])
          (identifiers [['x'], ['x'], ['y']] [0, 1, 2]) names
        ↔ NumbersApart (identifierPolicy [['x'], ['x'], ['y']])
          (identifiers [['x'], ['x'], ['y']] [0, 1, 2]) [0, 1, 2]) := by
  obtain ⟨names, hrun⟩ := Option.isSome_iff_exists.mp
    (show (uniquifyAll (identifierPolicy [['x'], ['x'], ['y']])
      (identifiers [['x'], ['x'], ['y']] [0, 1, 2]) (onePlaceEach [0, 1, 2])).isSome
      by decide +kernel)
  exact ⟨names, hrun, unique_names_iff (by decide) hrun⟩

/-- **Two identifiers with one name.**  The second x becomes x_1, which the third node is
already called; and an undeclared x keeps its name, which the x reached before it has got. -/
theorem not_unique_names :
    (∃ names, uniquifyAll (identifierPolicy [['x'], ['x'], ['x', '_', '1']])
        (identifiers [['x'], ['x'], ['x', '_', '1']] [0, 1, 2]) (onePlaceEach [0, 1, 2])
          = some names
      ∧ ¬ NamesUnique (identifierPolicy [['x'], ['x'], ['x', '_', '1']])
        (identifiers [['x'], ['x'], ['x', '_', '1']] [0, 1, 2]) names)
    ∧ ∃ names, uniquifyAll (identifierPolicy [['x'], ['x']]) (identifiers [['x'], ['x']] [0])
        (onePlaceEach [0, 1]) = some names
      ∧ ¬ NamesUnique (identifierPolicy [['x'], ['x']]) (identifiers [['x'], ['x']] [0]) names := by
  constructor
  · have hclash : (uniquifyAll (identifierPolicy [['x'], ['x'], ['x', '_', '1']])
        (identifiers [['x'], ['x'], ['x', '_', '1']] [0, 1, 2]) (onePlaceEach [0, 1, 2])).any
          (fun names => decide (names.lookup 1 = some ['x', '_', '1']
            ∧ names.lookup 2 = some ['x', '_', '1'])) = true := by decide +kernel
    obtain ⟨names, hrun, hboth⟩ := (Option.any_eq_true _ _).mp hclash
    obtain ⟨hone, htwo⟩ := of_decide_eq_true hboth
    refine ⟨names, hrun, ?_⟩
    intro hunique
    exact absurd (hunique 1 2 _ (by decide) hone htwo).1 (by decide)
  · have hclash : (uniquifyAll (identifierPolicy [['x'], ['x']])
        (identifiers [['x'], ['x']] [0]) (onePlaceEach [0, 1])).any
          (fun names => decide (names.lookup 0 = some ['x'] ∧ names.lookup 1 = some ['x']))
            = true := by decide +kernel
    obtain ⟨names, hrun, hboth⟩ := (Option.any_eq_true _ _).mp hclash
    obtain ⟨hone, htwo⟩ := of_decide_eq_true hboth
    refine ⟨names, hrun, ?_⟩
    intro hunique
    exact absurd (hunique 0 1 _ (by decide) hone htwo).1 (by decide)

end Inferno.Lang
