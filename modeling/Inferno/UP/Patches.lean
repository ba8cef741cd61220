/-
  Inferno.UP.Patches
  ──────────────────
  The layout of an update: a tree of patches.

    • `Patch`     — a tree zone or a free zone, with a child patch for each terminus,
    • `walkOut`   — `ForDepthFirstWalk` with an action on wind-out,
    • `deref`, `assign` — reading and writing through a `shared_ptr<Patch> *`; a pointer
                    into a list that is gone gives no result,
    • `Everywhere` — a property of every zone of a layout, and the rules for it.
-/
import Inferno.DB.TreeZone

namespace Inferno.UP

open Inferno.Common Inferno.DB

/-! ## §1. Patches. -/

/-- `TreePatch::Intent`. -/
inductive Intent where
  | default
  | moveable
  | copyable
deriving DecidableEq

/-- `Originators`: pattern links. -/
abbrev Originators (P : Type) := Finset P

/-- `ReplaceAssignments`. -/
abbrev ReplaceAssignments (P : Type) := StdMap P Nat

/-- **A patch**, with the address of the `shared_ptr<Patch>` that holds it. -/
inductive Patch (P : Type) where
  | tree (ptr : Nat) (zone : TreeZone) (intent : Intent) (originators : Originators P)
      (children : List (Patch P))
  | free (ptr : Nat) (zone : FreeZone) (originators : Originators P) (children : List (Patch P))

namespace Patch

variable {P : Type}

def ptr : Patch P → Nat
  | .tree ptr .. => ptr
  | .free ptr .. => ptr

/-- `GetChildren`. -/
def children : Patch P → List (Patch P)
  | .tree _ _ _ _ children => children
  | .free _ _ _ children => children

/-- `GetOriginators`. -/
def originators : Patch P → Originators P
  | .tree _ _ _ originators _ => originators
  | .free _ _ originators _ => originators

/-- The patch with other children. -/
def withChildren : Patch P → List (Patch P) → Patch P
  | .tree ptr zone intent originators _, children => .tree ptr zone intent originators children
  | .free ptr zone originators _, children => .free ptr zone originators children

/-- The patch held elsewhere. -/
def withPtr : Patch P → Nat → Patch P
  | .tree _ zone intent originators children, ptr => .tree ptr zone intent originators children
  | .free _ zone originators children, ptr => .free ptr zone originators children

/-- `AddOriginators`. -/
def addOriginators [DecidableEq P] : Patch P → Originators P → Patch P
  | .tree ptr zone intent originators children, new =>
      .tree ptr zone intent (originators ∪ new) children
  | .free ptr zone originators children, new => .free ptr zone (originators ∪ new) children

/-- `SetIntent`. -/
def setIntent (new : Intent) : Patch P → Option (Patch P)
  | .tree ptr zone _ originators children => some (.tree ptr zone new originators children)
  | .free .. => none

/-! ## §2. Walks. -/

section

variable {m : Type → Type} [Monad m]

mutual

/-- `ForDepthFirstWalk` with `func_out`. -/
def walkOut (f : Patch P → m (Patch P)) : Patch P → m (Patch P)
  | .tree ptr zone intent originators children => do
      let children ← walkOutAll f children
      f (.tree ptr zone intent originators children)
  | .free ptr zone originators children => do
      let children ← walkOutAll f children
      f (.free ptr zone originators children)

def walkOutAll (f : Patch P → m (Patch P)) : List (Patch P) → m (List (Patch P))
  | [] => pure []
  | child :: rest => do
      let child ← walkOut f child
      let rest ← walkOutAll f rest
      pure (child :: rest)

end

/-- `ForTreeDepthFirstWalk` with `func_out`. -/
def walkTreesOut (f : Patch P → m (Patch P)) : Patch P → m (Patch P) :=
  walkOut fun patch => match patch with
    | .tree .. => f patch
    | .free .. => pure patch

/-- `ForFreeDepthFirstWalk` with `func_out`. -/
def walkFreesOut (f : Patch P → m (Patch P)) : Patch P → m (Patch P) :=
  walkOut fun patch => match patch with
    | .tree .. => pure patch
    | .free .. => f patch

end

mutual

/-- The patches in wind-in order. -/
def windIn : Patch P → List (Patch P)
  | .tree ptr zone intent originators children =>
      .tree ptr zone intent originators children :: windInAll children
  | .free ptr zone originators children =>
      .free ptr zone originators children :: windInAll children

def windInAll : List (Patch P) → List (Patch P)
  | [] => []
  | child :: rest => windIn child ++ windInAll rest

end

theorem windInAll_eq (cs : List (Patch P)) : windInAll cs = cs.flatMap windIn := by
  induction cs with
  | nil => rfl
  | cons c cs ih => rw [windInAll, ih, List.flatMap_cons]

/-- The walk of a patch. -/
theorem windIn_eq (p : Patch P) : p.windIn = p :: windInAll p.children := by
  cases p <;> rfl

theorem mem_windInAll {cs : List (Patch P)} {q : Patch P} :
    q ∈ windInAll cs ↔ ∃ c ∈ cs, q ∈ c.windIn := by
  rw [windInAll_eq, List.mem_flatMap]

theorem mem_windIn_self (p : Patch P) : p ∈ p.windIn := by
  rw [windIn_eq]
  exact List.mem_cons_self

mutual

/-- The patches in wind-out order. -/
def windOut : Patch P → List (Patch P)
  | .tree ptr zone intent originators children =>
      windOutAll children ++ [.tree ptr zone intent originators children]
  | .free ptr zone originators children =>
      windOutAll children ++ [.free ptr zone originators children]

def windOutAll : List (Patch P) → List (Patch P)
  | [] => []
  | child :: rest => windOut child ++ windOutAll rest

end

/-- `dynamic_pointer_cast<TreePatch>`: the zone and the intent. -/
def treeZone? : Patch P → Option (TreeZone × Intent)
  | .tree _ zone intent _ _ => some (zone, intent)
  | .free .. => none

/-! ## §3. Pointers to patches. -/

/-- `*patch_ptr`. -/
def deref (layout : Patch P) (ptr : Nat) : Option (Patch P) :=
  layout.windIn.find? (·.ptr = ptr)

mutual

/-- `*patch_ptr = patch`. -/
def assign (ptr : Nat) (patch : Patch P) : Patch P → Option (Patch P)
  | .tree ptr' zone intent originators children =>
      if ptr' = ptr then some patch
      else (assignAll ptr patch children).map (.tree ptr' zone intent originators ·)
  | .free ptr' zone originators children =>
      if ptr' = ptr then some patch
      else (assignAll ptr patch children).map (.free ptr' zone originators ·)

def assignAll (ptr : Nat) (patch : Patch P) : List (Patch P) → Option (List (Patch P))
  | [] => none
  | child :: rest =>
      match assign ptr patch child with
      | some child => some (child :: rest)
      | none => (assignAll ptr patch rest).map (child :: ·)

end

/-- An address above those in use. -/
def freshPtr (layout : Patch P) : Nat :=
  (layout.windIn.map ptr).foldl max 0 + 1

/-! ## §4. A property of every zone. -/

/-- A property of the tree patches and one of the free patches. -/
structure ZoneProperty where
  tree : TreeZone → Intent → Prop
  free : FreeZone → Prop

/-- The property of the zone of one patch. -/
def ZoneProperty.At (F : ZoneProperty) : Patch P → Prop
  | .tree _ zone intent _ _ => F.tree zone intent
  | .free _ zone _ _ => F.free zone

mutual

/-- **Every zone of the layout has the property.** -/
def Everywhere (F : ZoneProperty) : Patch P → Prop
  | .tree _ zone intent _ children => F.tree zone intent ∧ EverywhereAll F children
  | .free _ zone _ children => F.free zone ∧ EverywhereAll F children

def EverywhereAll (F : ZoneProperty) : List (Patch P) → Prop
  | [] => True
  | child :: rest => Everywhere F child ∧ EverywhereAll F rest

end

section

variable {F G : ZoneProperty}

theorem everywhereAll_iff {cs : List (Patch P)} :
    EverywhereAll F cs ↔ ∀ c ∈ cs, Everywhere F c := by
  induction cs with
  | nil => simp [EverywhereAll]
  | cons c cs ih => simp [EverywhereAll, ih]

/-- The property at the root, and in the children. -/
theorem everywhere_iff {p : Patch P} :
    Everywhere F p ↔ F.At p ∧ EverywhereAll F p.children := by
  cases p <;> rfl

mutual

theorem Everywhere.mono (htree : ∀ z i, F.tree z i → G.tree z i)
    (hfree : ∀ z, F.free z → G.free z) : ∀ p : Patch P, Everywhere F p → Everywhere G p
  | .tree _ zone intent _ cs, h => by
      unfold Everywhere at h ⊢
      exact ⟨htree zone intent h.1, EverywhereAll.mono htree hfree cs h.2⟩
  | .free _ zone _ cs, h => by
      unfold Everywhere at h ⊢
      exact ⟨hfree zone h.1, EverywhereAll.mono htree hfree cs h.2⟩

theorem EverywhereAll.mono (htree : ∀ z i, F.tree z i → G.tree z i)
    (hfree : ∀ z, F.free z → G.free z) :
    ∀ cs : List (Patch P), EverywhereAll F cs → EverywhereAll G cs
  | [], _ => by
      unfold EverywhereAll
      trivial
  | c :: cs, h => by
      unfold EverywhereAll at h ⊢
      exact ⟨Everywhere.mono htree hfree c h.1, EverywhereAll.mono htree hfree cs h.2⟩

end

mutual

/-- The property, patch by patch. -/
theorem everywhere_iff_windIn : ∀ p : Patch P, Everywhere F p ↔ ∀ q ∈ p.windIn, F.At q
  | .tree _ zone intent _ cs => by
      rw [Everywhere, windIn, List.forall_mem_cons, everywhereAll_iff_windIn cs]
      rfl
  | .free _ zone _ cs => by
      rw [Everywhere, windIn, List.forall_mem_cons, everywhereAll_iff_windIn cs]
      rfl

theorem everywhereAll_iff_windIn :
    ∀ cs : List (Patch P), EverywhereAll F cs ↔ ∀ q ∈ windInAll cs, F.At q
  | [] => by simp [EverywhereAll, windInAll]
  | c :: cs => by
      rw [EverywhereAll, windInAll, List.forall_mem_append, everywhere_iff_windIn c,
        everywhereAll_iff_windIn cs]

end

end

end Patch

end Inferno.UP
