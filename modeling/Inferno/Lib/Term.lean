/-
  Inferno.Lib.Term
  ────────────────
  Trees with holes, and what goes into the holes.

    • `Term`          — a hole, or a labelled node whose children stand in groups,
    • `fill`          — a list of trees in place of each hole,
    • `fill_fill`     — to fill and fill again is to fill once,
    • `plug`          — what goes into each of a list of holes,
    • `fillAll_plug_splice` — a tree goes into one hole, and its own holes take its place.

  A hole in a group can take any number of trees.
-/
import Mathlib.Data.List.Nodup
import Mathlib.Data.List.Zip

namespace Inferno.Lib

/-! ## §1. Terms. -/

/-- **A tree with holes.** -/
inductive Term (A X : Type) where
  | hole (x : X)
  | node (label : A) (groups : List (List (Term A X)))

namespace Term

variable {A X Y Z : Type}

mutual

/-- The holes of a tree, from left to right. -/
def holes : Term A X → List X
  | .hole x => [x]
  | .node _ groups => holesIn groups

def holesIn : List (List (Term A X)) → List X
  | [] => []
  | ts :: groups => holesAll ts ++ holesIn groups

def holesAll : List (Term A X) → List X
  | [] => []
  | t :: ts => holes t ++ holesAll ts

end

mutual

/-- **A list of trees in place of each hole.** -/
def fill (f : X → List (Term A Y)) : Term A X → List (Term A Y)
  | .hole x => f x
  | .node label groups => [.node label (fillIn f groups)]

def fillIn (f : X → List (Term A Y)) : List (List (Term A X)) → List (List (Term A Y))
  | [] => []
  | ts :: groups => fillAll f ts :: fillIn f groups

def fillAll (f : X → List (Term A Y)) : List (Term A X) → List (Term A Y)
  | [] => []
  | t :: ts => fill f t ++ fillAll f ts

end

/-! ## §2. The laws of filling. -/

section

variable {f g : X → List (Term A Y)}

theorem fillAll_append (ts us : List (Term A X)) :
    fillAll f (ts ++ us) = fillAll f ts ++ fillAll f us := by
  induction ts with
  | nil => rfl
  | cons t ts ih =>
      show fill f t ++ fillAll f (ts ++ us) = _
      rw [ih, ← List.append_assoc]
      rfl

theorem fillAll_singleton (t : Term A X) : fillAll f [t] = fill f t :=
  List.append_nil _

theorem holesAll_append (ts us : List (Term A X)) :
    holesAll (ts ++ us) = holesAll ts ++ holesAll us := by
  induction ts with
  | nil => rfl
  | cons t ts ih =>
      show holes t ++ holesAll (ts ++ us) = _
      rw [ih, ← List.append_assoc]
      rfl

theorem holesAll_singleton (t : Term A X) : holesAll [t] = holes t :=
  List.append_nil _

theorem holesAll_eq (ts : List (Term A X)) : holesAll ts = ts.flatMap holes := by
  induction ts with
  | nil => rfl
  | cons t ts ih =>
      show holes t ++ holesAll ts = _
      rw [ih, List.flatMap_cons]

theorem holesIn_eq (groups : List (List (Term A X))) :
    holesIn groups = groups.flatMap holesAll := by
  induction groups with
  | nil => rfl
  | cons ts groups ih =>
      show holesAll ts ++ holesIn groups = _
      rw [ih, List.flatMap_cons]

mutual

/-- What goes into the holes decides. -/
theorem fill_congr : ∀ t : Term A X, (∀ x ∈ holes t, f x = g x) → fill f t = fill g t
  | .hole x, h => h x (List.mem_singleton_self x)
  | .node label groups, h => by
      unfold fill
      rw [fillIn_congr groups h]

theorem fillIn_congr : ∀ groups : List (List (Term A X)), (∀ x ∈ holesIn groups, f x = g x) →
    fillIn f groups = fillIn g groups
  | [], _ => rfl
  | ts :: groups, h => by
      unfold holesIn at h
      rw [List.forall_mem_append] at h
      unfold fillIn
      rw [fillAll_congr ts h.1, fillIn_congr groups h.2]

theorem fillAll_congr : ∀ ts : List (Term A X), (∀ x ∈ holesAll ts, f x = g x) →
    fillAll f ts = fillAll g ts
  | [], _ => rfl
  | t :: ts, h => by
      unfold holesAll at h
      rw [List.forall_mem_append] at h
      unfold fillAll
      rw [fill_congr t h.1, fillAll_congr ts h.2]

end

variable (f) (g' : Y → List (Term A Z))

mutual

/-- **Filling twice.** -/
theorem fill_fill : ∀ t : Term A X,
    fillAll g' (fill f t) = fill (fun x => fillAll g' (f x)) t
  | .hole x => rfl
  | .node label groups => by
      unfold fill
      rw [fillAll_singleton]
      show [Term.node label (fillIn g' (fillIn f groups))] = _
      rw [fillIn_fillIn groups]

theorem fillIn_fillIn : ∀ groups : List (List (Term A X)),
    fillIn g' (fillIn f groups) = fillIn (fun x => fillAll g' (f x)) groups
  | [] => rfl
  | ts :: groups => by
      show fillAll g' (fillAll f ts) :: fillIn g' (fillIn f groups) = _
      rw [fillAll_fillAll ts, fillIn_fillIn groups]
      rfl

theorem fillAll_fillAll : ∀ ts : List (Term A X),
    fillAll g' (fillAll f ts) = fillAll (fun x => fillAll g' (f x)) ts
  | [] => rfl
  | t :: ts => by
      show fillAll g' (fill f t ++ fillAll f ts) = _
      rw [fillAll_append, fill_fill t, fillAll_fillAll ts]
      rfl

end

mutual

/-- The holes left are those of what went in. -/
theorem holesAll_fill : ∀ t : Term A X,
    holesAll (fill f t) = (holes t).flatMap fun x => holesAll (f x)
  | .hole x => by
      show holesAll (f x) = [x].flatMap _
      rw [List.flatMap_singleton]
  | .node label groups => by
      unfold fill
      rw [holesAll_singleton]
      exact holesIn_fillIn groups

theorem holesIn_fillIn : ∀ groups : List (List (Term A X)),
    holesIn (fillIn f groups) = (holesIn groups).flatMap fun x => holesAll (f x)
  | [] => rfl
  | ts :: groups => by
      show holesAll (fillAll f ts) ++ holesIn (fillIn f groups) = List.flatMap _ (_ ++ _)
      rw [List.flatMap_append, holesAll_fillAll ts, holesIn_fillIn groups]

theorem holesAll_fillAll : ∀ ts : List (Term A X),
    holesAll (fillAll f ts) = (holesAll ts).flatMap fun x => holesAll (f x)
  | [] => rfl
  | t :: ts => by
      show holesAll (fill f t ++ fillAll f ts) = List.flatMap _ (_ ++ _)
      rw [holesAll_append, List.flatMap_append, holesAll_fill t, holesAll_fillAll ts]

end

end

mutual

/-- Every hole by itself. -/
theorem fill_hole : ∀ t : Term A X, fill (fun x => [.hole x]) t = [t]
  | .hole x => rfl
  | .node label groups => by
      unfold fill
      rw [fillIn_hole groups]

theorem fillIn_hole : ∀ groups : List (List (Term A X)),
    fillIn (fun x => [.hole x]) groups = groups
  | [] => rfl
  | ts :: groups => by
      unfold fillIn
      rw [fillAll_hole ts, fillIn_hole groups]

theorem fillAll_hole : ∀ ts : List (Term A X), fillAll (fun x => [.hole x]) ts = ts
  | [] => rfl
  | t :: ts => by
      unfold fillAll
      rw [fill_hole t, fillAll_hole ts]
      rfl

end

/-! ## §3. What goes into each of a list of holes. -/

section

variable [DecidableEq X]

/-- What goes into a hole, of a list of holes with what goes into each. -/
def plug : List X → List (List (Term A Y)) → X → List (Term A Y)
  | x :: xs, ts :: tss, y => if y = x then ts else plug xs tss y
  | _, _, _ => []

variable {xs ys : List X} {tss uss : List (List (Term A Y))} {ts : List (Term A Y)} {x y : X}

theorem plug_head : plug (x :: xs) (ts :: tss) x = ts :=
  if_pos rfl

theorem plug_tail (hne : y ≠ x) : plug (x :: xs) (ts :: tss) y = plug xs tss y :=
  if_neg hne

theorem plug_append_left (hlen : xs.length = tss.length) (hy : y ∈ xs) :
    plug (xs ++ ys) (tss ++ uss) y = plug xs tss y := by
  induction xs generalizing tss with
  | nil => exact absurd hy List.not_mem_nil
  | cons x xs ih =>
      cases tss with
      | nil => exact absurd hlen (Nat.succ_ne_zero _)
      | cons ts tss =>
          show plug (x :: (xs ++ ys)) (ts :: (tss ++ uss)) y = _
          by_cases hne : y = x
          · rw [hne, plug_head, plug_head]
          · rw [plug_tail hne, plug_tail hne]
            exact ih (Nat.succ.inj hlen) ((List.mem_cons.mp hy).resolve_left hne)

theorem plug_append_right (hlen : xs.length = tss.length) (hy : y ∉ xs) :
    plug (xs ++ ys) (tss ++ uss) y = plug ys uss y := by
  induction xs generalizing tss with
  | nil =>
      rw [List.eq_nil_of_length_eq_zero hlen.symm]
      rfl
  | cons x xs ih =>
      cases tss with
      | nil => exact absurd hlen (Nat.succ_ne_zero _)
      | cons ts tss =>
          rw [List.mem_cons, not_or] at hy
          show plug (x :: (xs ++ ys)) (ts :: (tss ++ uss)) y = _
          rw [plug_tail hy.1]
          exact ih (Nat.succ.inj hlen) hy.2

/-- Holes under other names, no two of which become one. -/
theorem plug_map {f : X → Z} [DecidableEq Z] (hinj : ∀ y ∈ xs, f y = f x → y = x) :
    plug (xs.map f) tss (f x) = plug xs tss x := by
  induction xs generalizing tss with
  | nil => rfl
  | cons y xs ih =>
      rw [List.forall_mem_cons] at hinj
      cases tss with
      | nil => rfl
      | cons ts tss =>
          rw [List.map_cons]
          by_cases hxy : x = y
          · rw [hxy, plug_head, plug_head]
          · have hne : f x ≠ f y := fun heq => hxy (hinj.1 heq.symm).symm
            rw [plug_tail hne, plug_tail hxy]
            exact ih hinj.2

/-- The holes in their order take the lists in theirs. -/
theorem flatMap_plug (hlen : xs.length = tss.length) (hnodup : xs.Nodup) :
    xs.flatMap (plug xs tss) = tss.flatten := by
  induction xs generalizing tss with
  | nil =>
      rw [List.eq_nil_of_length_eq_zero hlen.symm]
      rfl
  | cons x xs ih =>
      cases tss with
      | nil => exact absurd hlen (Nat.succ_ne_zero _)
      | cons ts tss =>
          rw [List.nodup_cons] at hnodup
          have htail : xs.flatMap (plug (x :: xs) (ts :: tss)) = xs.flatMap (plug xs tss) := by
            apply List.flatMap_congr
            intro y hy
            apply plug_tail
            intro heq
            exact hnodup.1 (heq ▸ hy)
          rw [List.flatMap_cons, plug_head, htail, ih (Nat.succ.inj hlen) hnodup.2,
            List.flatten_cons]

/-- A hole in place of a hole is one of those given. -/
theorem mem_of_hole_plug {ss : List Z} {z : Z}
    (hz : z ∈ holesAll (plug xs (ss.map fun s => [Term.hole (A := A) s]) x)) : z ∈ ss := by
  induction xs generalizing ss with
  | nil => exact absurd hz List.not_mem_nil
  | cons y xs ih =>
      cases ss with
      | nil => exact absurd hz List.not_mem_nil
      | cons s ss =>
          rw [List.map_cons] at hz
          by_cases hxy : x = y
          · rw [hxy, plug_head] at hz
            rw [List.mem_singleton.mp hz]
            exact List.mem_cons_self
          · rw [plug_tail hxy] at hz
            exact List.mem_cons_of_mem _ (ih hz)

/-- Holes in place of holes, and then what goes into those. -/
theorem fillAll_plug_plug {ss : List Z} [DecidableEq Z] (hlen : xs.length = ss.length)
    (hlen' : ss.length = tss.length) (hnodup : ss.Nodup) (hx : x ∈ xs) :
    fillAll (plug ss tss) (plug xs (ss.map fun s => [Term.hole (A := A) s]) x)
      = plug xs tss x := by
  induction xs generalizing ss tss with
  | nil => exact absurd hx List.not_mem_nil
  | cons y xs ih =>
      cases ss with
      | nil => exact absurd hlen (Nat.succ_ne_zero _)
      | cons s ss =>
          cases tss with
          | nil => exact absurd hlen' (Nat.succ_ne_zero _)
          | cons ts tss =>
              rw [List.nodup_cons] at hnodup
              rw [List.map_cons]
              by_cases hxy : x = y
              · rw [hxy, plug_head, plug_head, fillAll_singleton]
                exact plug_head
              · have hmem : x ∈ xs := (List.mem_cons.mp hx).resolve_left hxy
                rw [plug_tail hxy, plug_tail hxy,
                  ← ih (Nat.succ.inj hlen) (Nat.succ.inj hlen') hnodup.2 hmem]
                refine fillAll_congr _ fun z hz => plug_tail ?_
                rintro rfl
                exact hnodup.1 (mem_of_hole_plug hz)

/-- The holes of what goes into a list of holes. -/
theorem flatMap_holesAll_plug (hlen : xs.length = tss.length) (hnodup : xs.Nodup) :
    (xs.flatMap fun x => holesAll (plug xs tss x)) = holesAll tss.flatten := by
  rw [← flatMap_plug hlen hnodup, holesAll_eq, List.flatMap_assoc]
  apply List.flatMap_congr
  intro x _
  exact holesAll_eq _

/-- **A list of trees goes into one hole**, and the holes that they have come to stand in its
place: what is filled in afterwards gives the same as if it had been filled in first. -/
theorem fillAll_plug_splice {pre post zs : List X} {vs us : List (Term A X)}
    {preM postM midM : List (List (Term A Y))}
    (hpre : pre.length = preM.length) (hmid : zs.length = midM.length)
    (hus : ∀ y ∈ holesAll us, y ∈ pre ++ x :: post) (hvs : ∀ y ∈ holesAll vs, y ∈ zs)
    (hnodup : (pre ++ x :: post).Nodup) (hapart : ∀ y ∈ zs, y ∉ pre) :
    (∀ y ∈ post, y ∉ zs) →
    fillAll (plug (pre ++ zs ++ post) (preM ++ midM ++ postM))
        (fillAll (fun y => if y = x then vs else [.hole y]) us)
      = fillAll (plug (pre ++ x :: post) (preM ++ fillAll (plug zs midM) vs :: postM)) us := by
  intro hpost
  -- the hole is neither before nor after itself
  have hx : x ∉ pre ∧ x ∉ post := by
    rw [List.nodup_append'] at hnodup
    refine ⟨fun hmem => hnodup.2.2 hmem List.mem_cons_self, ?_⟩
    exact (List.nodup_cons.mp hnodup.2.1).1
  rw [fillAll_fillAll]
  apply fillAll_congr
  intro y hy
  -- at the hole the trees are filled, and elsewhere nothing changes
  by_cases hyx : y = x
  · rw [if_pos hyx, hyx, plug_append_right hpre hx.1, plug_head, List.append_assoc,
      List.append_assoc]
    apply fillAll_congr
    intro z hz
    rw [plug_append_right hpre (hapart z (hvs z hz)), plug_append_left hmid (hvs z hz)]
  · rw [if_neg hyx, fillAll_singleton, List.append_assoc, List.append_assoc]
    show plug _ _ y = _
    by_cases hmem : y ∈ pre
    · rw [plug_append_left hpre hmem, plug_append_left hpre hmem]
    · have hin : y ∈ post := by
        rcases List.mem_append.mp (hus y hy) with h | h
        · exact absurd h hmem
        · exact (List.mem_cons.mp h).resolve_left hyx
      rw [plug_append_right hpre hmem, plug_append_right hpre hmem, plug_tail hyx,
        plug_append_right hmid (hpost y hin)]

end

end Term

end Inferno.Lib
