/-
  Inferno.Tree.FindMember
  ────────────────────────────────────────────────────────────────────────────
  `FindMemberByName` of tree/misc.cpp: hunting through a record and its bases
  for a named member.

  • §1 The records as the function sees them and the two loops, with the
       captured `i` that every turn overwrites.
  • §2 What the function is for: the first own member with the name, else the
       first found depth-first through the bases.
  • §3 The lookup is total and unique where the inheritance is acyclic.
  • §4 What the two loops do.
  • §5 Exactly when the function finds the named member.
-/
import Mathlib.Logic.Relation
import Mathlib.Data.List.Basic

namespace Inferno.Tree

/-! ## §1. The function. -/

/-- A member: an `Instance`, or a declaration of another kind. -/
inductive Declaration (I : Type)
  | «instance» (i : I)
  | other

/-- What `DeclarationOf` makes of an identifier: it throws `DeclarationNotFound`,
or gives a node that casts to an `InheritanceRecord`, or one that does not. -/
inductive Declared (R : Type)
  | notFound
  | inheritanceRecord (r : R)
  | other

/-- The program: records `R`, type identifiers `T`, instances `I`. -/
structure Program (R T I : Type) where
  /-- The members, in the order of the collection. -/
  members : R → List (Declaration I)
  /-- The `record` of each `Base`; none where the record is no `InheritanceRecord`. -/
  bases : R → Option (List T)
  /-- `DeclarationOf().TryApplyTransformation`. -/
  declarationOf : T → Declared R
  /-- `GetIdentifierName` of an instance's identifier; none where that is not a
  `SpecificInstanceIdentifier`. -/
  identifierName : I → Option String

/-- How the function can end other than by returning. -/
inductive Fault
  | declarationNotFound
  | assertion
deriving DecidableEq

/-- What has become of a run: it is still going when the fuel is spent, it has
thrown, or it has returned an instance or null. -/
abbrev Outcome (I : Type) := Option (Except Fault (Option I))

section
variable {R T I : Type} (p : Program R T I) (name : String)

/-- The loop over `members`. The captured `i` is assigned on every turn, hit or not. -/
def membersLoop : List (Declaration I) → Option I → Option I
  | [], i => i
  | .other :: ds, _ => membersLoop ds none
  | .instance x :: ds, _ =>
      if p.identifierName x = some name then some x else membersLoop ds (some x)

/-- The loop over `bases`, left on the first base that gives an instance. -/
def basesLoop (find : R → Outcome I) : List T → Outcome I
  | [] => some (.ok none)
  | t :: ts =>
      match p.declarationOf t with
      | .notFound => some (.error .declarationNotFound)
      | .other => some (.error .assertion)
      | .inheritanceRecord b =>
          match find b with
          | none => none
          | some (.error e) => some (.error e)
          | some (.ok (some x)) => some (.ok (some x))
          | some (.ok none) => basesLoop find ts

/-- `FindMemberByName`. -/
def findMemberByName : Nat → R → Outcome I
  | 0, _ => none
  | fuel + 1, r =>
      match membersLoop p name (p.members r) none with
      | some i => some (.ok (some i))
      | none =>
          match p.bases r with
          | none => some (.ok none)
          | some ts => basesLoop p (findMemberByName fuel) ts

/-! ## §2. What it is for. -/

/-- An instance whose `SpecificInstanceIdentifier` has the name. -/
def Named (x : I) : Prop := p.identifierName x = some name

/-- The instance that a declaration is, where it has the name. -/
def namedInstance : Declaration I → Option I
  | .instance x => if p.identifierName x = some name then some x else none
  | .other => none

/-- The first member of the record that is an instance with the name. -/
def ownMember (r : R) : Option I := (p.members r).findSome? (namedInstance p name)

/-- The bases' identifiers, none for a record that is no `InheritanceRecord`. -/
def baseIdentifiers (r : R) : List T := (p.bases r).getD []

/-- The record that an identifier is declared as, if it is one. -/
def recordOf (t : T) : Option R :=
  match p.declarationOf t with
  | .inheritanceRecord b => some b
  | _ => none

/-- The records that the bases are declared as, in order. -/
def baseRecords (r : R) : List R := (baseIdentifiers p r).filterMap (recordOf p)

/-- `b` is a direct base of `r`. -/
def IsBase (b r : R) : Prop := b ∈ baseRecords p r

mutual
/-- What the name means in a record: its own first member with the name, else
what it means in the bases. -/
inductive Lookup : R → Option I → Prop
  | own {r : R} {x : I} : ownMember p name r = some x → Lookup r (some x)
  | bases {r : R} {res : Option I} :
      ownMember p name r = none → LookupIn (baseRecords p r) res → Lookup r res

/-- What the name means in a list of bases: what it means in the first of them
where it means anything. -/
inductive LookupIn : List R → Option I → Prop
  | nil : LookupIn [] none
  | hit {b : R} {bs : List R} {x : I} : Lookup b (some x) → LookupIn (b :: bs) (some x)
  | miss {b : R} {bs : List R} {res : Option I} :
      Lookup b none → LookupIn bs res → LookupIn (b :: bs) res
end

/-- `FindMemberByName` does its job at a record: it returns, and with what the
name means there, an instance with that name; null exactly when neither the
record nor a direct or indirect base has such a member. -/
def FindsNamedMember (r : R) : Prop :=
  ∃ (fuel : Nat) (res : Option I), findMemberByName p name fuel r = some (.ok res) ∧
    Lookup p name r res ∧ (∀ x, res = some x → Named p name x) ∧
    (res = none ↔ ∀ b, Relation.ReflTransGen (IsBase p) b r →
      ∀ x, Declaration.instance x ∈ p.members b → ¬ Named p name x)

/-- The last member of the record is an instance. -/
def EndsWithInstance (r : R) : Prop :=
  ∃ x, (p.members r).getLast? = some (Declaration.instance x)

/-- The search for the name in `r` comes to the base identifier `t`: the record
has no such member and nor has any base before it. -/
def ComesTo (r : R) (t : T) : Prop :=
  ownMember p name r = none ∧ ∃ front back, baseIdentifiers p r = front ++ t :: back ∧
    ∀ u ∈ front, ∃ b, p.declarationOf u = .inheritanceRecord b ∧ Lookup p name b none

/-- One record's search enters another's. -/
def Enters (r b : R) : Prop :=
  ∃ t, ComesTo p name r t ∧ p.declarationOf t = .inheritanceRecord b

/-- In every record that the search from `r` enters and that has no member with
the name, the last member is no instance, and every base that the search comes
to is declared as an `InheritanceRecord`. -/
def ClearSearch (r : R) : Prop :=
  ∀ b, Relation.ReflTransGen (Enters p name) r b → ownMember p name b = none →
    ¬ EndsWithInstance p b ∧
    ∀ t, ComesTo p name b t → ∃ c, p.declarationOf t = .inheritanceRecord c

/-! ## §3. The lookup is total and unique. -/

theorem recordOf_some {t : T} {b : R} :
    recordOf p t = some b ↔ p.declarationOf t = .inheritanceRecord b := by
  unfold recordOf
  cases p.declarationOf t with
  | notFound => simp
  | other => simp
  | inheritanceRecord c => simp

theorem namedInstance_some {d : Declaration I} {x : I} :
    namedInstance p name d = some x ↔ d = .instance x ∧ Named p name x := by
  unfold Named
  cases d with
  | other => simp [namedInstance]
  | «instance» y =>
      by_cases hy : p.identifierName y = some name
      · simp only [namedInstance, hy, if_true, Option.some.injEq, Declaration.instance.injEq]
        constructor
        · intro h
          exact ⟨h, h ▸ hy⟩
        · intro h
          exact h.1
      · simp only [namedInstance, hy, if_false, Declaration.instance.injEq]
        constructor
        · intro h
          cases h
        · rintro ⟨rfl, h⟩
          exact absurd h hy

theorem ownMember_some {r : R} {x : I} (h : ownMember p name r = some x) :
    Declaration.instance x ∈ p.members r ∧ Named p name x := by
  obtain ⟨d, hd, hx⟩ := List.exists_of_findSome?_eq_some h
  have hdx := (namedInstance_some p name).mp hx
  exact ⟨hdx.1 ▸ hd, hdx.2⟩

theorem ownMember_none {r : R} (h : ownMember p name r = none) (x : I)
    (hx : Declaration.instance x ∈ p.members r) : ¬ Named p name x := by
  intro hname
  have hnone := List.findSome?_eq_none_iff.mp h _ hx
  rw [(namedInstance_some p name).mpr ⟨rfl, hname⟩] at hnone
  cases hnone

/-- A lookup that finds an instance finds it among the members of the record or of
a direct or indirect base, and it has the name. -/
theorem Lookup.found {r : R} {res : Option I} (h : Lookup p name r res) :
    ∀ x, res = some x → ∃ b, Relation.ReflTransGen (IsBase p) b r ∧
      Declaration.instance x ∈ p.members b ∧ Named p name x := by
  refine Lookup.rec
    (motive_1 := fun r res _ => ∀ x, res = some x →
      ∃ b, Relation.ReflTransGen (IsBase p) b r ∧
        Declaration.instance x ∈ p.members b ∧ Named p name x)
    (motive_2 := fun bs res _ => ∀ x, res = some x →
      ∃ c ∈ bs, ∃ b, Relation.ReflTransGen (IsBase p) b c ∧
        Declaration.instance x ∈ p.members b ∧ Named p name x) ?_ ?_ ?_ ?_ ?_ h
  · intro r x hx y hy
    cases hy
    exact ⟨r, .refl, ownMember_some p name hx⟩
  · intro r res _ _ ih x hx
    obtain ⟨c, hc, b, hbc, hb⟩ := ih x hx
    exact ⟨b, hbc.tail hc, hb⟩
  · intro x hx
    cases hx
  · intro b bs x _ ih y hy
    obtain ⟨c, hc⟩ := ih y hy
    exact ⟨b, List.mem_cons_self, c, hc⟩
  · intro b bs res _ _ _ ih x hx
    obtain ⟨c, hc, hfound⟩ := ih x hx
    exact ⟨c, List.mem_cons_of_mem b hc, hfound⟩

/-- A lookup that finds nothing is right: nothing with the name is there. -/
theorem Lookup.nothing {r : R} {res : Option I} (h : Lookup p name r res) :
    res = none → ∀ b, Relation.ReflTransGen (IsBase p) b r →
      ∀ x, Declaration.instance x ∈ p.members b → ¬ Named p name x := by
  refine Lookup.rec
    (motive_1 := fun r res _ => res = none → ∀ b, Relation.ReflTransGen (IsBase p) b r →
      ∀ x, Declaration.instance x ∈ p.members b → ¬ Named p name x)
    (motive_2 := fun bs res _ => res = none → ∀ c ∈ bs, ∀ b,
      Relation.ReflTransGen (IsBase p) b c →
      ∀ x, Declaration.instance x ∈ p.members b → ¬ Named p name x) ?_ ?_ ?_ ?_ ?_ h
  · intro r x _ hnone
    cases hnone
  · intro r res hown _ ih hnone b hbr
    cases hbr with
    | refl => exact ownMember_none p name hown
    | tail hbc hcr => exact ih hnone _ hcr b hbc
  · intro _ c hc
    cases hc
  · intro b bs x _ _ hnone
    cases hnone
  · intro b bs res _ _ ihb ih hnone c hc
    cases hc with
    | head => exact ihb rfl
    | tail _ hc => exact ih hnone c hc

theorem LookupIn.existsUnique (bs : List R) (h : ∀ b ∈ bs, ∃! res, Lookup p name b res) :
    ∃! res, LookupIn p name bs res := by
  induction bs with
  | nil =>
      refine ⟨none, .nil, ?_⟩
      intro res hres
      cases hres
      rfl
  | cons b bs ih =>
      obtain ⟨found, hfound, honly⟩ := h b List.mem_cons_self
      obtain ⟨rest, hrest, hrestOnly⟩ := ih fun c hc => h c (List.mem_cons_of_mem b hc)
      cases found with
      | some x =>
          refine ⟨some x, .hit hfound, ?_⟩
          intro res hres
          cases hres with
          | hit hb => exact honly _ hb
          | miss hb _ => exact absurd (honly _ hb) (by simp)
      | none =>
          refine ⟨rest, .miss hfound hrest, ?_⟩
          intro res hres
          cases hres with
          | hit hb => exact absurd (honly _ hb) (by simp)
          | miss _ hbs => exact hrestOnly _ hbs

/-- Where the inheritance is acyclic, a name means exactly one thing in a record. -/
theorem Lookup.existsUnique {r : R} (h : Acc (IsBase p) r) : ∃! res, Lookup p name r res := by
  induction h with
  | intro r _ ih =>
      cases hown : ownMember p name r with
      | some x =>
          refine ⟨some x, .own hown, ?_⟩
          intro res hres
          cases hres with
          | own hx => rw [← hx, hown]
          | bases hnone _ => rw [hown] at hnone; cases hnone
      | none =>
          obtain ⟨res, hres, honly⟩ := LookupIn.existsUnique p name (baseRecords p r) ih
          refine ⟨res, .bases hown hres, ?_⟩
          intro other hother
          cases hother with
          | own hx => rw [hown] at hx; cases hx
          | bases _ hin => exact honly _ hin

/-! ## §4. What the two loops do. -/

theorem membersLoop_hit (ds : List (Declaration I)) (i : Option I) (x : I)
    (h : ds.findSome? (namedInstance p name) = some x) : membersLoop p name ds i = some x := by
  induction ds generalizing i with
  | nil => cases h
  | cons d ds ih =>
      cases d with
      | other => exact ih none h
      | «instance» y =>
          by_cases hy : p.identifierName y = some name
          · have hxy : y = x := by simpa [namedInstance, hy] using h
            subst hxy
            simp [membersLoop, hy]
          · have hrest : ds.findSome? (namedInstance p name) = some x := by
              simpa [List.findSome?_cons, namedInstance, hy] using h
            simp [membersLoop, hy, ih (some y) hrest]

/-- With no hit the loop leaves the instance that the last member is. -/
theorem membersLoop_miss (ds : List (Declaration I)) (i : Option I)
    (h : ds.findSome? (namedInstance p name) = none) :
    membersLoop p name ds i = match ds.getLast? with
      | none => i
      | some .other => none
      | some (.instance x) => some x := by
  induction ds generalizing i with
  | nil => rfl
  | cons d ds ih =>
      cases d with
      -- a member that is no instance clears what was found
      | other =>
          have hrest : ds.findSome? (namedInstance p name) = none := h
          show membersLoop p name ds none = _
          rw [ih none hrest, List.getLast?_cons]
          cases ds.getLast? with
          | none => rfl
          | some last => cases last <;> rfl
      -- an instance with another name stays in the variable
      | «instance» y =>
          have hy : ¬ p.identifierName y = some name := by
            intro hy
            simp [namedInstance, hy] at h
          have hrest : ds.findSome? (namedInstance p name) = none := by
            simpa [List.findSome?_cons, namedInstance, hy] using h
          have hstep : membersLoop p name (.instance y :: ds) i =
              membersLoop p name ds (some y) := by simp [membersLoop, hy]
          rw [hstep, ih (some y) hrest, List.getLast?_cons]
          cases ds.getLast? with
          | none => rfl
          | some last => cases last <;> rfl

/-- More fuel does not change what has come out. -/
theorem basesLoop_mono {find find' : R → Outcome I}
    (h : ∀ b res, find b = some res → find' b = some res) (ts : List T)
    (res : Except Fault (Option I)) (hrun : basesLoop p find ts = some res) :
    basesLoop p find' ts = some res := by
  induction ts with
  | nil => exact hrun
  | cons t ts ih =>
      unfold basesLoop at hrun ⊢
      cases hdecl : p.declarationOf t with
      | notFound => simpa [hdecl] using hrun
      | other => simpa [hdecl] using hrun
      | inheritanceRecord b =>
          simp only [hdecl] at hrun ⊢
          cases hfind : find b with
          | none => simp [hfind] at hrun
          | some out =>
              rw [h b out hfind]
              rw [hfind] at hrun
              cases out with
              | error e => exact hrun
              | ok found =>
                  cases found with
                  | some x => exact hrun
                  | none => exact ih hrun

theorem findMemberByName_mono (fuel : Nat) : ∀ (r : R) (res : Except Fault (Option I)),
    findMemberByName p name fuel r = some res →
    findMemberByName p name (fuel + 1) r = some res := by
  induction fuel with
  | zero =>
      intro r res h
      cases h
  | succ fuel ih =>
      intro r res h
      unfold findMemberByName at h ⊢
      cases hm : membersLoop p name (p.members r) none with
      | some i => simpa [hm] using h
      | none =>
          simp only [hm] at h ⊢
          cases hb : p.bases r with
          | none => simpa [hb] using h
          | some ts =>
              simp only [hb] at h ⊢
              exact basesLoop_mono p ih ts res h

theorem findMemberByName_le {fuel fuel' : Nat} (hle : fuel ≤ fuel') {r : R}
    {res : Except Fault (Option I)} (h : findMemberByName p name fuel r = some res) :
    findMemberByName p name fuel' r = some res := by
  induction hle with
  | refl => exact h
  | step _ ih => exact findMemberByName_mono p name _ r res ih

/-- The search comes to no base of the list that is not declared as a record with
a clear search. -/
def ClearBases (ts : List T) : Prop :=
  ∀ front t back, ts = front ++ t :: back →
    (∀ u ∈ front, ∃ b, p.declarationOf u = .inheritanceRecord b ∧ Lookup p name b none) →
    ∃ c, p.declarationOf t = .inheritanceRecord c ∧ ClearSearch p name c

/-- A search is clear by its own record and by the bases it comes to. -/
theorem clearSearch_iff (r : R) :
    ClearSearch p name r ↔ (ownMember p name r = none →
      ¬ EndsWithInstance p r ∧ ClearBases p name (baseIdentifiers p r)) := by
  constructor
  · intro h hown
    refine ⟨(h r .refl hown).1, ?_⟩
    intro front t back hts hfront
    have hcome : ComesTo p name r t := ⟨hown, front, back, hts, hfront⟩
    obtain ⟨c, hc⟩ := (h r .refl hown).2 t hcome
    refine ⟨c, hc, ?_⟩
    intro b hb hnone
    exact h b (Relation.ReflTransGen.head ⟨t, hcome, hc⟩ hb) hnone
  · intro h b hb
    cases hb using Relation.ReflTransGen.head_induction_on with
    | refl =>
        intro hown
        refine ⟨(h hown).1, ?_⟩
        rintro t ⟨_, front, back, hts, hfront⟩
        obtain ⟨c, hc, _⟩ := (h hown).2 front t back hts hfront
        exact ⟨c, hc⟩
    | head hstep hrest _ =>
        obtain ⟨t, ⟨hown, front, back, hts, hfront⟩, hc⟩ := hstep
        obtain ⟨c, hc', hclear⟩ := (h hown).2 front t back hts hfront
        rw [hc] at hc'
        cases hc'
        exact hclear b hrest

theorem clearBases_nil : ClearBases p name [] := by
  intro front t back h
  cases front <;> cases h

theorem clearBases_cons (t : T) (ts : List T) :
    ClearBases p name (t :: ts) ↔ ∃ c, p.declarationOf t = .inheritanceRecord c ∧
      ClearSearch p name c ∧ (Lookup p name c none → ClearBases p name ts) := by
  constructor
  · intro h
    obtain ⟨c, hc, hclear⟩ := h [] t ts rfl (by simp)
    refine ⟨c, hc, hclear, ?_⟩
    intro hnone front u back hts hfront
    refine h (t :: front) u back (by rw [hts]; rfl) ?_
    intro v hv
    cases hv with
    | head => exact ⟨c, hc, hnone⟩
    | tail _ hv => exact hfront v hv
  · rintro ⟨c, hc, hclear, hrest⟩ front u back hts hfront
    cases front with
    | nil =>
        cases hts
        exact ⟨c, hc, hclear⟩
    | cons v front =>
        cases hts
        obtain ⟨b, hb, hnone⟩ := hfront t List.mem_cons_self
        rw [hc] at hb
        cases hb
        exact hrest hnone front u back rfl fun w hw => hfront w (List.mem_cons_of_mem t hw)

/-- An outcome that is no lookup: a fault, or an instance without the name. -/
def Stray (out : Outcome I) : Prop :=
  (∃ e, out = some (.error e)) ∨ ∃ x, out = some (.ok (some x)) ∧ ¬ Named p name x

/-- What one record's search comes to: the lookup where it is clear, else astray. -/
def Settles (r : R) (out : Outcome I) : Prop :=
  (ClearSearch p name r ∧ ∃ res, out = some (.ok res) ∧ Lookup p name r res) ∨
    (¬ ClearSearch p name r ∧ Stray p name out)

theorem basesLoop_settles (find : R → Outcome I) (ts : List T)
    (hfind : ∀ t ∈ ts, ∀ b, p.declarationOf t = .inheritanceRecord b →
      Settles p name b (find b))
    (honly : ∀ t ∈ ts, ∀ b, p.declarationOf t = .inheritanceRecord b →
      ∃! res, Lookup p name b res) :
    (ClearBases p name ts ∧ ∃ res, basesLoop p find ts = some (.ok res) ∧
        LookupIn p name (ts.filterMap (recordOf p)) res) ∨
      (¬ ClearBases p name ts ∧ Stray p name (basesLoop p find ts)) := by
  induction ts with
  | nil => exact Or.inl ⟨clearBases_nil p name, none, rfl, .nil⟩
  | cons t ts ih =>
      have ih' := ih (fun u hu => hfind u (List.mem_cons_of_mem t hu))
        (fun u hu => honly u (List.mem_cons_of_mem t hu))
      rw [clearBases_cons]
      cases hdecl : p.declarationOf t with
      -- a base that is no record: the loop goes astray
      | notFound =>
          refine Or.inr ⟨by simp, Or.inl ⟨.declarationNotFound, ?_⟩⟩
          simp [basesLoop, hdecl]
      | other =>
          refine Or.inr ⟨by simp, Or.inl ⟨.assertion, ?_⟩⟩
          simp [basesLoop, hdecl]
      | inheritanceRecord b =>
          have hrec : (t :: ts).filterMap (recordOf p) = b :: ts.filterMap (recordOf p) :=
            List.filterMap_cons_some ((recordOf_some p).mpr hdecl)
          have honlyb := honly t List.mem_cons_self b hdecl
          rw [hrec]
          rcases hfind t List.mem_cons_self b hdecl with ⟨hclear, res, hrun, hlook⟩ | ⟨hnot, hstray⟩
          · cases res with
            | some x =>
                -- the hit leaves the loop, whatever the bases behind it are
                have hloop : basesLoop p find (t :: ts) = some (.ok (some x)) := by
                  simp [basesLoop, hdecl, hrun]
                refine Or.inl ⟨⟨b, rfl, hclear, ?_⟩, some x, hloop, .hit hlook⟩
                intro hnone
                exact absurd (honlyb.unique hnone hlook) (by simp)
            -- a miss: the loop goes on with the bases behind
            | none =>
                have hloop : basesLoop p find (t :: ts) = basesLoop p find ts := by
                  simp [basesLoop, hdecl, hrun]
                rw [hloop]
                rcases ih' with ⟨hrest, res, hrun', hin⟩ | ⟨hrest, hstray⟩
                · exact Or.inl ⟨⟨b, rfl, hclear, fun _ => hrest⟩, res, hrun', .miss hlook hin⟩
                · refine Or.inr ⟨?_, hstray⟩
                  rintro ⟨c, hc, _, h⟩
                  cases hc
                  exact hrest (h hlook)
          · -- the search in this base is astray already
            refine Or.inr ⟨?_, ?_⟩
            · rintro ⟨c, hc, hclear, _⟩
              cases hc
              exact hnot hclear
            · rcases hstray with ⟨e, he⟩ | ⟨x, hx, hname⟩
              · exact Or.inl ⟨e, by simp [basesLoop, hdecl, he]⟩
              · exact Or.inr ⟨x, by simp [basesLoop, hdecl, hx], hname⟩

/-! ## §5. Exactly when the named member is found. -/

/-- Some fuel is enough for a whole list of records where some is for each. -/
theorem exists_fuel {P : R → Outcome I → Prop} (bs : List R)
    (h : ∀ b ∈ bs, ∃ fuel res, findMemberByName p name fuel b = some res ∧ P b (some res)) :
    ∃ fuel, ∀ b ∈ bs, ∃ res, findMemberByName p name fuel b = some res ∧ P b (some res) := by
  induction bs with
  | nil => exact ⟨0, fun b hb => absurd hb List.not_mem_nil⟩
  | cons b bs ih =>
      obtain ⟨fuel, res, hrun, hb⟩ := h b List.mem_cons_self
      obtain ⟨fuel', hrest⟩ := ih fun c hc => h c (List.mem_cons_of_mem b hc)
      refine ⟨max fuel fuel', ?_⟩
      intro c hc
      cases hc with
      | head => exact ⟨res, findMemberByName_le p name (Nat.le_max_left _ _) hrun, hb⟩
      | tail _ hc =>
          obtain ⟨res', hrun', hc'⟩ := hrest c hc
          exact ⟨res', findMemberByName_le p name (Nat.le_max_right _ _) hrun', hc'⟩

/-- Every search comes to an end, with the lookup or astray by whether it is clear. -/
theorem findMemberByName_settles {r : R} (hr : Acc (IsBase p) r) :
    ∃ fuel res, findMemberByName p name fuel r = some res ∧ Settles p name r (some res) := by
  induction hr with
  | intro r hacc ih =>
      -- the bases that are searched are records
      have hbase : ∀ t ∈ baseIdentifiers p r, ∀ b, p.declarationOf t = .inheritanceRecord b →
          b ∈ baseRecords p r := fun t ht b hb =>
        List.mem_filterMap.mpr ⟨t, ht, (recordOf_some p).mpr hb⟩
      obtain ⟨fuel, hfuel⟩ := exists_fuel p name (baseRecords p r) ih
      cases hown : ownMember p name r with
      | some x =>
          have hloop := membersLoop_hit p name (p.members r) none x hown
          have hclear : ClearSearch p name r := by
            rw [clearSearch_iff]
            intro h
            rw [hown] at h
            cases h
          have hrun : findMemberByName p name 1 r = some (.ok (some x)) := by
            simp [findMemberByName, hloop]
          exact ⟨1, _, hrun, Or.inl ⟨hclear, some x, rfl, .own hown⟩⟩
      | none =>
          have hloop := membersLoop_miss p name (p.members r) none hown
          by_cases hend : EndsWithInstance p r
          · -- the last member is taken for a hit
            obtain ⟨x, hx⟩ := hend
            have hrun : findMemberByName p name 1 r = some (.ok (some x)) := by
              rw [hx] at hloop
              simp [findMemberByName, hloop]
            have hmem : Declaration.instance x ∈ p.members r := List.mem_of_getLast? hx
            refine ⟨1, _, hrun, Or.inr ⟨?_, Or.inr ⟨x, rfl, ?_⟩⟩⟩
            · intro hclear
              exact (((clearSearch_iff p name r).mp hclear) hown).1 ⟨x, hx⟩
            · exact ownMember_none p name hown x hmem
          · -- no last instance: the search goes on with the bases
            have hnull : membersLoop p name (p.members r) none = none := by
              rw [hloop]
              cases hlast : (p.members r).getLast? with
              | none => rfl
              | some last =>
                  cases last with
                  | other => rfl
                  | «instance» x => exact absurd ⟨x, hlast⟩ hend
            have hstep : findMemberByName p name (fuel + 1) r =
                basesLoop p (findMemberByName p name fuel) (baseIdentifiers p r) := by
              unfold findMemberByName baseIdentifiers
              rw [hnull]
              cases p.bases r with
              | none => rfl
              | some ts => rfl
            -- clear here exactly if clear in the bases
            have hclear : ClearSearch p name r ↔ ClearBases p name (baseIdentifiers p r) := by
              rw [clearSearch_iff]
              constructor
              · intro h
                exact (h hown).2
              · intro h _
                exact ⟨hend, h⟩
            have hsettles : ∀ t ∈ baseIdentifiers p r, ∀ b,
                p.declarationOf t = .inheritanceRecord b →
                Settles p name b (findMemberByName p name fuel b) := by
              intro t ht b hb
              obtain ⟨res, hrun, hset⟩ := hfuel b (hbase t ht b hb)
              rw [hrun]
              exact hset
            rcases basesLoop_settles p name (findMemberByName p name fuel) (baseIdentifiers p r)
              hsettles (fun t ht b hb =>
                Lookup.existsUnique p name (hacc b (hbase t ht b hb))) with
              ⟨hc, res, hrun, hin⟩ | ⟨hc, hstray⟩
            · exact ⟨fuel + 1, .ok res, hstep.trans hrun,
                Or.inl ⟨hclear.mpr hc, res, rfl, .bases hown hin⟩⟩
            · have hnot : ¬ ClearSearch p name r := fun h => hc (hclear.mp h)
              rw [← hstep] at hstray
              rcases hstray with ⟨e, he⟩ | ⟨x, hx, hname⟩
              · exact ⟨fuel + 1, _, he, Or.inr ⟨hnot, Or.inl ⟨e, rfl⟩⟩⟩
              · exact ⟨fuel + 1, _, hx, Or.inr ⟨hnot, Or.inr ⟨x, rfl, hname⟩⟩⟩

/-- **Member lookup, exactly.** Over any acyclic inheritance, `FindMemberByName`
returns the named member, the record's own first and else the first depth-first
through the bases, and null where there is none, if and only if in every record
that the search enters without finding the name there the last member is no
instance, and every base that the search comes to is declared as a record. -/
theorem findMemberByName_exact (r : R) (hacyclic : Acc (IsBase p) r) :
    FindsNamedMember p name r ↔ ClearSearch p name r := by
  obtain ⟨fuel, out, hrun, hset⟩ := findMemberByName_settles p name hacyclic
  constructor
  · -- both runs return one result
    rintro ⟨fuel', res, hrun', _, hnamed, _⟩
    have h := findMemberByName_le p name (Nat.le_max_left fuel fuel') hrun
    have h' := findMemberByName_le p name (Nat.le_max_right fuel fuel') hrun'
    have hout : out = .ok res := by
      rw [h] at h'
      exact Option.some.inj h'
    rcases hset with ⟨hclear, _⟩ | ⟨_, ⟨e, he⟩ | ⟨x, hx, hname⟩⟩
    · exact hclear
    · rw [hout] at he
      cases he
    · rw [hout] at hx
      cases hx
      exact absurd (hnamed x rfl) hname
  · -- and back: the lookup is what is returned, named and complete
    intro hclear
    rcases hset with ⟨_, res, hres, hlook⟩ | ⟨hnot, _⟩
    · cases hres
      refine ⟨fuel, res, hrun, hlook, ?_, ?_⟩
      · intro x hx
        obtain ⟨_, _, _, hname⟩ := hlook.found p name x hx
        exact hname
      · constructor
        · exact hlook.nothing p name
        · intro hno
          cases res with
          | none => rfl
          | some x =>
              obtain ⟨b, hb, hmem, hname⟩ := hlook.found p name x rfl
              exact absurd hname (hno b hb x hmem)
    · exact absurd hclear hnot

end

/-- A class with one base. The base declares `f`; the class declares the instance
given, or nothing. -/
def derivedProgram (own : List (Declaration Nat)) : Program Bool Unit Nat where
  members := fun r => if r then own else [.instance 0, .other]
  bases := fun r => if r then some [()] else some []
  declarationOf := fun _ => .inheritanceRecord false
  identifierName := fun i => if i = 0 then some "f" else some "g"

theorem derivedProgram_acyclic (own : List (Declaration Nat)) (r : Bool) :
    Acc (IsBase (derivedProgram own)) r := by
  have hbase : Acc (IsBase (derivedProgram own)) false := by
    refine ⟨false, ?_⟩
    intro b hb
    cases hb
  cases r with
  | false => exact hbase
  | true =>
      refine ⟨true, ?_⟩
      intro b hb
      have hfalse : b = false := by
        simpa [IsBase, baseRecords, baseIdentifiers, derivedProgram, recordOf] using hb
      rw [hfalse]
      exact hbase

/-- `f` looked up in a class whose only member is `g`: the class's `g` is given,
not the `f` of its base. -/
theorem derivedProgram_findsOther :
    findMemberByName (derivedProgram [.instance 1]) "f" 2 true = some (.ok (some 1)) ∧
      ¬ FindsNamedMember (derivedProgram [.instance 1]) "f" true := by
  constructor
  · decide
  · rintro ⟨fuel, res, hrun, _, hnamed, _⟩
    have hother : findMemberByName (derivedProgram [.instance 1]) "f" (fuel + 1) true =
        some (.ok (some 1)) := by
      simp [findMemberByName, membersLoop, derivedProgram]
    have hmono := findMemberByName_mono _ _ fuel true _ hrun
    rw [hother] at hmono
    cases hmono
    exact absurd (hnamed 1 rfl) (by simp [Named, derivedProgram])

/-- The class with no member of its own finds its base's `f`. -/
theorem findMemberByName_exact_derived :
    FindsNamedMember (derivedProgram []) "f" true ↔ ClearSearch (derivedProgram []) "f" true :=
  findMemberByName_exact (derivedProgram []) "f" true (derivedProgram_acyclic [] true)

end Inferno.Tree
