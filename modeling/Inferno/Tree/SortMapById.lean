/-
  Inferno.Tree.SortMapById
  ────────────────────────────────────────────────────────────────────────────
  `IdValuePair::SortMapById` of tree/cpptree.cpp: arguments by name put in the
  order of the parameters.

  • §1 The function, over what it reads of the nodes.
  • §2 The values it finds, parameter by parameter.
  • §3 What it is for: each value at the place of its parameter, none dropped.
  • §4 Exactly when the values are there: the keys are those of the first
       parameters.
-/
import Mathlib.Data.List.Basic
import Mathlib.Data.List.Nodup
import Mathlib.Data.List.Perm.Subperm

namespace Inferno.Tree

variable {I V : Type} [DecidableEq I]

/-! ## §1. The function. -/

/-- A declaration of the key sequence: an `Instance`, with whether its type is a `Callable`,
or a declaration of another kind. -/
inductive KeyDeclaration (I : Type)
  | «instance» (identifier : I) (callable : Bool)
  | other

/-- A key and a value.  Keys are compared by pointer. -/
structure IdValuePair (I V : Type) where
  key : I
  value : V

/-- The search for the matching member: the first pair with the key. -/
def IdValuePair.search (idValueMap : List (IdValuePair I V)) (identifier : I) : Option V :=
  (idValueMap.find? fun mi => identifier = mi.key).map (·.value)

/-- `SortMapById`.  The collection is given in the order that it is iterated in. -/
def IdValuePair.sortMapById (idValueMap : List (IdValuePair I V)) :
    List (KeyDeclaration I) → List V
  | [] => []
  | .instance identifier false :: ds =>
      match IdValuePair.search idValueMap identifier with
      | some value => value :: sortMapById idValueMap ds
      | none => sortMapById idValueMap ds
  | .instance _ true :: ds => sortMapById idValueMap ds
  | .other :: ds => sortMapById idValueMap ds

/-! ## §2. The values found. -/

/-- The non-function instances of a key sequence. -/
def parameters : List (KeyDeclaration I) → List I
  | [] => []
  | .instance identifier false :: ds => identifier :: parameters ds
  | .instance _ true :: ds => parameters ds
  | .other :: ds => parameters ds

variable {idValueMap : List (IdValuePair I V)}

/-- **The result** is the values of the parameters that have one. -/
theorem sortMapById_eq (ds : List (KeyDeclaration I)) :
    IdValuePair.sortMapById idValueMap ds
      = (parameters ds).filterMap (IdValuePair.search idValueMap) := by
  induction ds with
  | nil => rfl
  | cons d ds ih =>
      cases d with
      | other => exact ih
      | «instance» identifier callable =>
          cases callable with
          | true => exact ih
          | false =>
              unfold IdValuePair.sortMapById parameters
              rw [List.filterMap_cons]
              cases IdValuePair.search idValueMap identifier with
              | none => exact ih
              | some value => exact congrArg (value :: ·) ih

/-- A parameter has a value exactly when it is a key. -/
theorem search_isSome {identifier : I} :
    (IdValuePair.search idValueMap identifier).isSome
      ↔ identifier ∈ idValueMap.map (·.key) := by
  unfold IdValuePair.search
  rw [Option.isSome_map, List.find?_isSome, List.mem_map]
  constructor
  · rintro ⟨mi, hmi, heq⟩
    exact ⟨mi, hmi, (of_decide_eq_true heq).symm⟩
  · rintro ⟨mi, hmi, heq⟩
    exact ⟨mi, hmi, decide_eq_true heq.symm⟩

/-- With distinct keys, the value found is that of the pair with the key. -/
theorem search_eq_some (hkeys : (idValueMap.map (·.key)).Nodup) {identifier : I} {value : V} :
    IdValuePair.search idValueMap identifier = some value
      ↔ (⟨identifier, value⟩ : IdValuePair I V) ∈ idValueMap := by
  unfold IdValuePair.search
  constructor
  · intro h
    obtain ⟨mi, hmi, rfl⟩ := Option.map_eq_some_iff.mp h
    have hkey : identifier = mi.key := by simpa using List.find?_some hmi
    subst hkey
    exact List.mem_of_find?_eq_some hmi
  · intro h
    induction idValueMap with
    | nil => exact absurd h List.not_mem_nil
    | cons mi rest ih =>
        obtain ⟨hnew, hkeys⟩ := List.nodup_cons.mp hkeys
        rcases List.mem_cons.mp h with rfl | hrest
        · rw [List.find?_cons_of_pos (by simp)]
          rfl
        · have hne : identifier ≠ mi.key := by
            rintro rfl
            exact hnew (List.mem_map.mpr ⟨_, hrest, rfl⟩)
          rw [List.find?_cons_of_neg (by simpa using hne)]
          exact ih hkeys hrest

/-! ## §3. What the function is for. -/

/-- **The values are where their parameters are**: the value at each place is the one keyed
by the parameter at the place, and no pair is dropped. -/
structure KeepsParameters (idValueMap : List (IdValuePair I V)) (ds : List (KeyDeclaration I)) :
    Prop where
  placed : ∀ (k : Nat) (value : V), (IdValuePair.sortMapById idValueMap ds)[k]? = some value →
    ∃ identifier, (parameters ds)[k]? = some identifier
      ∧ (⟨identifier, value⟩ : IdValuePair I V) ∈ idValueMap
  kept : ∀ mi ∈ idValueMap, ∃ k : Nat, (parameters ds)[k]? = some mi.key
    ∧ (IdValuePair.sortMapById idValueMap ds)[k]? = some mi.value

/-- **The keys are those of the first parameters**, in any order. -/
def KeysAreFirst (idValueMap : List (IdValuePair I V)) (ds : List (KeyDeclaration I)) : Prop :=
  (idValueMap.map (·.key)).Perm ((parameters ds).take idValueMap.length)

/-! ## §4. When the values are where their parameters are. -/

/-- There are as many values as parameters that are keys. -/
theorem length_sortMapById (ds : List (KeyDeclaration I)) :
    (IdValuePair.sortMapById idValueMap ds).length
      = ((parameters ds).filter (· ∈ idValueMap.map (·.key))).length := by
  rw [sortMapById_eq]
  induction parameters ds with
  | nil => rfl
  | cons identifier rest ih =>
      by_cases hmem : identifier ∈ idValueMap.map (·.key)
      · obtain ⟨value, hvalue⟩ := Option.isSome_iff_exists.mp (search_isSome.mpr hmem)
        rw [List.filterMap_cons_some hvalue, List.filter_cons_of_pos (by simpa using hmem),
          List.length_cons, List.length_cons, ih]
      · have hnone : IdValuePair.search idValueMap identifier = none := by
          rw [← Option.not_isSome_iff_eq_none, search_isSome]
          exact hmem
        rw [List.filterMap_cons_none hnone, List.filter_cons_of_neg (by simpa using hmem), ih]

/-- If each value is where its parameter is, the first parameters are the keys. -/
theorem KeepsParameters.keysAreFirst {ds : List (KeyDeclaration I)}
    (hparams : (parameters ds).Nodup) (hkeys : (idValueMap.map (·.key)).Nodup)
    (h : KeepsParameters idValueMap ds) : KeysAreFirst idValueMap ds := by
  -- every key is a parameter, so there is a value for each pair
  have hsub : idValueMap.map (·.key) ⊆ parameters ds := by
    intro identifier hmem
    obtain ⟨mi, hmi, rfl⟩ := List.mem_map.mp hmem
    obtain ⟨k, hk, _⟩ := h.kept mi hmi
    exact List.mem_of_getElem? hk
  have hkeyed : ((parameters ds).filter (· ∈ idValueMap.map (·.key))).Perm
      (idValueMap.map (·.key)) := by
    refine (List.perm_ext_iff_of_nodup (hparams.filter _) hkeys).mpr ?_
    intro identifier
    rw [List.mem_filter, decide_eq_true_iff]
    exact ⟨fun hmem => hmem.2, fun hmem => ⟨hsub hmem, hmem⟩⟩
  have hlen : (IdValuePair.sortMapById idValueMap ds).length = idValueMap.length := by
    rw [length_sortMapById, hkeyed.length_eq, List.length_map]
  -- and the parameter at the place of a value is its key
  have hfirst : (parameters ds).take idValueMap.length ⊆ idValueMap.map (·.key) := by
    intro identifier hmem
    obtain ⟨k, hk⟩ := List.mem_iff_getElem?.mp hmem
    have hlt : k < idValueMap.length := by
      by_contra hge
      rw [List.getElem?_take_eq_none (Nat.le_of_not_lt hge)] at hk
      cases hk
    rw [List.getElem?_take_of_lt hlt] at hk
    have hvalue := List.getElem?_eq_getElem (hlen ▸ hlt)
    obtain ⟨identifier', hk', hmi⟩ := h.placed k _ hvalue
    obtain rfl := Option.some.inj (hk.symm.trans hk')
    exact List.mem_map.mpr ⟨_, hmi, rfl⟩
  have hlenFirst : ((parameters ds).take idValueMap.length).length
      = (idValueMap.map (·.key)).length := by
    have hle := (List.subperm_of_subset hkeys hsub).length_le
    rw [List.length_map] at hle ⊢
    rw [List.length_take, Nat.min_eq_left hle]
  have hnodup := hparams.sublist (List.take_sublist idValueMap.length (parameters ds))
  exact ((List.subperm_of_subset hnodup hfirst).perm_of_length_le (Nat.le_of_eq hlenFirst.symm)).symm

omit [DecidableEq I] in
/-- A search that always finds. -/
theorem map_some_filterMap {f : I → Option V} {l : List I} (h : ∀ x ∈ l, (f x).isSome) :
    (l.filterMap f).map some = l.map f := by
  induction l with
  | nil => rfl
  | cons x l ih =>
      rw [List.forall_mem_cons] at h
      obtain ⟨value, hvalue⟩ := Option.isSome_iff_exists.mp h.1
      rw [List.filterMap_cons_some hvalue, List.map_cons, List.map_cons, hvalue, ih h.2]

omit [DecidableEq I] in
theorem getElem?_of_take {l : List I} {n k : Nat} {x : I} (h : (l.take n)[k]? = some x) :
    l[k]? = some x := by
  rw [List.getElem?_take] at h
  split at h
  · exact h
  · cases h

/-- If the keys are the first parameters, each value is where its parameter is. -/
theorem KeysAreFirst.keepsParameters {ds : List (KeyDeclaration I)}
    (hparams : (parameters ds).Nodup) (hkeys : (idValueMap.map (·.key)).Nodup)
    (h : KeysAreFirst idValueMap ds) : KeepsParameters idValueMap ds := by
  -- the values come in the order of the parameters
  have hresult : (IdValuePair.sortMapById idValueMap ds).map some
      = ((parameters ds).take idValueMap.length).map (IdValuePair.search idValueMap) := by
    rw [sortMapById_eq]
    have hsplit := List.take_append_drop idValueMap.length (parameters ds)
    -- the parameters after the first have no values
    have hrest : ((parameters ds).drop idValueMap.length).filterMap
        (IdValuePair.search idValueMap) = [] := by
      refine List.filterMap_eq_nil_iff.mpr ?_
      intro identifier hmem
      rw [← Option.not_isSome_iff_eq_none, search_isSome, h.mem_iff]
      rw [← hsplit] at hparams
      exact fun hfirst => (List.disjoint_of_nodup_append hparams) hfirst hmem
    have hfirst : ∀ identifier ∈ (parameters ds).take idValueMap.length,
        (IdValuePair.search idValueMap identifier).isSome := by
      intro identifier hmem
      exact search_isSome.mpr (h.mem_iff.mpr hmem)
    rw [← map_some_filterMap hfirst]
    conv_lhs => rw [← hsplit, List.filterMap_append, hrest, List.append_nil]
  have hat : ∀ k : Nat, ((IdValuePair.sortMapById idValueMap ds)[k]?).map some
      = (((parameters ds).take idValueMap.length)[k]?).map (IdValuePair.search idValueMap) := by
    intro k
    rw [← List.getElem?_map, ← List.getElem?_map, hresult]
  constructor
  · intro k value hvalue
    have hk := hat k
    rw [hvalue] at hk
    obtain ⟨identifier, hidentifier, hsearch⟩ := Option.map_eq_some_iff.mp hk.symm
    refine ⟨identifier, ?_, (search_eq_some hkeys).mp hsearch⟩
    exact getElem?_of_take hidentifier
  · -- a key is one of the first parameters, and its value found there
    intro mi hmi
    obtain ⟨k, hk⟩ := List.mem_iff_getElem?.mp (h.mem_iff.mp (List.mem_map.mpr ⟨mi, hmi, rfl⟩))
    have hfound := hat k
    rw [hk, Option.map_some, (search_eq_some hkeys).mpr hmi] at hfound
    obtain ⟨value, hvalue, heq⟩ := Option.map_eq_some_iff.mp hfound
    cases heq
    exact ⟨k, getElem?_of_take hk, hvalue⟩

/-- **Keyed arguments keep their parameters** exactly when the keys are those of the first
non-function instances of the sequence. -/
theorem keepsParameters_iff (idValueMap : List (IdValuePair I V)) (ds : List (KeyDeclaration I))
    (hparams : (parameters ds).Nodup) (hkeys : (idValueMap.map (·.key)).Nodup) :
    KeepsParameters idValueMap ds ↔ KeysAreFirst idValueMap ds :=
  ⟨KeepsParameters.keysAreFirst hparams hkeys, KeysAreFirst.keepsParameters hparams hkeys⟩

theorem keepsParameters_two : KeepsParameters [⟨7, 70⟩, (⟨5, 50⟩ : IdValuePair Nat Nat)]
    [.instance 5 false, .instance 6 true, .instance 7 false, .other, .instance 8 false] :=
  (keepsParameters_iff [⟨7, 70⟩, (⟨5, 50⟩ : IdValuePair Nat Nat)]
    [.instance 5 false, .instance 6 true, .instance 7 false, .other, .instance 8 false]
    (by decide) (by decide)).mpr (by
      show List.Perm [7, 5] [5, 7]
      decide)

/-- A value moves to the place of an earlier parameter that has none, and one whose key is not
a parameter is dropped. -/
theorem earlierParameter_not_kept :
    ¬ KeepsParameters [(⟨7, 70⟩ : IdValuePair Nat Nat)] [.instance 5 false, .instance 7 false]
    ∧ ¬ KeepsParameters [(⟨9, 90⟩ : IdValuePair Nat Nat)] [.instance 5 false] := by
  constructor
  · intro h
    obtain ⟨identifier, hidentifier, hmem⟩ := h.placed 0 70 (by decide)
    obtain rfl : 5 = identifier := Option.some.inj hidentifier
    simp at hmem
  · intro h
    obtain ⟨k, _, hvalue⟩ := h.kept ⟨9, 90⟩ (List.mem_singleton_self _)
    have hnone : IdValuePair.sortMapById [(⟨9, 90⟩ : IdValuePair Nat Nat)]
        [.instance 5 false] = [] := by decide
    rw [hnone] at hvalue
    exact absurd hvalue (by simp)

end Inferno.Tree
