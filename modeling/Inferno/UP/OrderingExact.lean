/-
  Inferno.UP.OrderingExact
  ────────────────────────
  The recursion of the ordering pass, from one link down.

    • `goals`, `ValidZones` — the children of a tree patch with their terminii, and the
                       zones that hang together,
    • `Ordered`      — the default patches below a patch are in order, all the way down,
    • `Outcome`      — what one piece of the recursion does to the state,
    • `Outcome.loop` — the pieces of a loop, one after the other,
    • `constrain_spec` — `ConstrainAnyPatchToDescendants` returns, and leaves the layout
                       in order below the link.
-/
import Inferno.UP.OrderingSettle
import Mathlib.Data.List.Flatten

namespace Inferno.UP

open Inferno.Common Inferno.DB Inferno.Lib Patch

variable {P A : Type} {db : XTreeDatabase Nat Nat A} {base : Nat} {f g : Intents}
  {p q r c : Patch P} {s s' : OrderingState}

/-! ## §1. Zones. -/

namespace Patch

/-- The children of a tree patch, each with the terminus it hangs from. -/
def goals : Patch P → List (Patch P × Nat)
  | .tree _ zone _ _ children => children.zip zone.terminii
  | .free .. => []

end Patch

/-- A tree zone of the database: it has a terminus for each child, each a link at or below
its base. -/
def ValidZone (db : XTreeDatabase Nat Nat A) : Patch P → Prop
  | .tree _ zone _ _ children => zone.base ∈ db.rows.keys
      ∧ zone.terminii.length = children.length
      ∧ ∀ t ∈ zone.terminii, t ∈ db.rows.keys ∧ db.WeakDescendant zone.base t
  | .free .. => True

/-- Every tree zone below is one of the database. -/
def ValidZones (db : XTreeDatabase Nat Nat A) (p : Patch P) : Prop :=
  ∀ q ∈ p.windIn, ValidZone db q

theorem ValidZones.child (h : ValidZones db p) (hc : c ∈ p.children) : ValidZones db c := by
  intro q hq
  refine h q ?_
  rw [windIn_eq]
  exact List.mem_cons_of_mem _ (mem_windInAll.mpr ⟨c, hc, hq⟩)

theorem ValidZones.of_mem (h : ValidZones db p) (hq : q ∈ p.windIn) : ValidZones db q :=
  fun r hr => h r ((windIn_sublist hq).subset hr)

/-- The patch of a goal is a child. -/
theorem goals_child {q : Patch P} {goal : Patch P × Nat} (h : goal ∈ goals q) :
    goal.1 ∈ q.children := by
  cases q with
  | tree ptr zone intent originators cs => exact (List.of_mem_zip h).1
  | free ptr zone originators cs => exact absurd h (by simp [goals])

/-- A goal's terminus is a link at or below the base. -/
theorem goals_terminus (hq : ValidZone db q) {goal : Patch P × Nat} (h : goal ∈ goals q) {a : Nat}
    (ha : q.base? = some a) : goal.2 ∈ db.rows.keys ∧ db.WeakDescendant a goal.2 := by
  cases q with
  | tree ptr zone intent originators cs =>
      obtain rfl : zone.base = a := Option.some.inj ha
      exact hq.2.2 _ (List.of_mem_zip h).2
  | free ptr zone originators cs => exact absurd h (by simp [goals])

/-- Every child of a tree patch is a goal's. -/
theorem goals_fst (hq : ValidZone db q) {a : Nat} (ha : q.base? = some a) :
    (goals q).map Prod.fst = q.children := by
  cases q with
  | tree ptr zone intent originators cs =>
      show (cs.zip zone.terminii).map Prod.fst = cs
      exact List.map_fst_zip hq.2.1.ge
  | free ptr zone originators cs => exact absurd ha (by simp [base?])

/-! ## §2. Layouts in order. -/

/-- **The default patches below a patch are in order**: the next ones, relative to a link,
and those next below each terminus of a default patch, relative to the terminus. -/
def Ordered (db : XTreeDatabase Nat Nat A) (f : Intents) (p : Patch P) (base : Nat) : Prop :=
  Accepts db ∅ base (nextDescendants f p) ∧ ∀ q ∈ p.windIn, f q.ptr = .default →
    ∀ goal ∈ goals q, Accepts db ∅ goal.2 (nextDescendants f goal.1)

/-- Which patches below have the default intent decides. -/
theorem Ordered.congr (h : SameDefaults f g p.windIn) (hf : Ordered db f p base) :
    Ordered db g p base := by
  obtain ⟨hnext, hbelow⟩ := hf
  refine ⟨?_, ?_⟩
  · rw [nextDescendants_congr h]
    exact hnext
  · intro q hq hdefault goal hgoal
    have htree : q.base?.isSome := by
      cases q with
      | tree ptr zone intent originators cs => rfl
      | free ptr zone originators cs => exact absurd hgoal (by simp [goals])
    rw [nextDescendants_congr (f := f)]
    · exact hbelow q hq ((h q hq htree).mp hdefault) goal hgoal
    · intro r hr
      refine h r ((windIn_sublist hq).subset ?_)
      rw [windIn_eq]
      exact List.mem_cons_of_mem _ (mem_windInAll.mpr ⟨goal.1, goals_child hgoal, hr⟩)

mutual

/-- **A default patch** is a next one, or below a next one. -/
theorem default_cases : ∀ {p q : Patch P}, q ∈ p.windIn → f q.ptr = .default →
    (∃ a, q.base? = some a) → q ∈ nextDescendants f p
      ∨ ∃ r ∈ nextDescendants f p, q ∈ windInAll r.children
  | .tree ptr zone intent originators cs, q, hq, hdefault, hbase => by
      unfold nextDescendants
      rw [windIn, List.mem_cons] at hq
      by_cases hf : f ptr = .default
      · rw [if_pos hf]
        rcases hq with rfl | hq
        · exact .inl (List.mem_singleton.mpr rfl)
        · exact .inr ⟨_, List.mem_singleton.mpr rfl, hq⟩
      · rw [if_neg hf]
        rcases hq with rfl | hq
        · exact absurd hdefault hf
        · exact default_casesAll hq hdefault hbase
  | .free ptr zone originators cs, q, hq, hdefault, hbase => by
      unfold nextDescendants
      rw [windIn, List.mem_cons] at hq
      rcases hq with rfl | hq
      · obtain ⟨a, ha⟩ := hbase
        exact absurd ha (by simp [base?])
      · exact default_casesAll hq hdefault hbase

theorem default_casesAll : ∀ {cs : List (Patch P)} {q : Patch P}, q ∈ windInAll cs →
    f q.ptr = .default → (∃ a, q.base? = some a) → q ∈ nextDescendantsAll f cs
      ∨ ∃ r ∈ nextDescendantsAll f cs, q ∈ windInAll r.children
  | [], _, hq, _, _ => absurd hq (by simp [windInAll])
  | c :: cs, q, hq, hdefault, hbase => by
      rw [windInAll, List.mem_append] at hq
      unfold nextDescendantsAll
      rcases hq with hq | hq
      · rcases default_cases hq hdefault hbase with hnext | ⟨r, hr, hbelow⟩
        · exact .inl (List.mem_append_left _ hnext)
        · exact .inr ⟨r, List.mem_append_left _ hr, hbelow⟩
      · rcases default_casesAll hq hdefault hbase with hnext | ⟨r, hr, hbelow⟩
        · exact .inl (List.mem_append_right _ hnext)
        · exact .inr ⟨r, List.mem_append_right _ hr, hbelow⟩

end

/-- **From the next ones down.** -/
theorem Ordered.of_next (hvalid : ValidZones db p)
    (hnext : Accepts db ∅ base (nextDescendants f p))
    (hbelow : ∀ r ∈ nextDescendants f p, ∀ goal ∈ goals r, Ordered db f goal.1 goal.2) :
    Ordered db f p base := by
  refine ⟨hnext, ?_⟩
  intro q hq hdefault goal hgoal
  have hbase : ∃ a, q.base? = some a := by
    cases q with
    | tree ptr zone intent originators cs => exact ⟨zone.base, rfl⟩
    | free ptr zone originators cs => exact absurd hgoal (by simp [goals])
  rcases default_cases hq hdefault hbase with hqnext | ⟨r, hr, hqr⟩
  · exact (hbelow q hqnext goal hgoal).1
  · -- the child of `r` that `q` is below
    obtain ⟨c, hc, hqc⟩ := mem_windInAll.mp hqr
    obtain ⟨_, a, ha⟩ := mem_nextDescendants hr
    have hvalidr := hvalid r (mem_windIn_of_nextDescendants hr)
    rw [← goals_fst hvalidr ha] at hc
    obtain ⟨above, habove, rfl⟩ := List.mem_map.mp hc
    exact (hbelow r hr above habove).2 q hqc hdefault goal hgoal

/-! ## §3. Pieces of the recursion. -/

/-- **A piece of the recursion**: the patches whose intents it may take, the bases it
accepts when it is done, the order it leaves, and a link that its bases lie below. -/
structure Piece (P : Type) where
  patches : List (Patch P)
  found : Intents → List Nat
  Done : Intents → Prop
  top : Nat

/-- Only the intents of its own patches count. -/
def Piece.Local (piece : Piece P) : Prop :=
  ∀ f g : Intents, (∀ a ∈ ptrs piece.patches, g a = f a) →
    piece.found g = piece.found f ∧ (piece.Done f → piece.Done g)

/-- **What pieces of the recursion do.** -/
structure Outcome (db : XTreeDatabase Nat Nat A) (pieces : List (Piece P))
    (s s' : OrderingState) : Prop where
  lowers : Lowers s.intents s'.intents
  frame : ∀ a ∉ ptrs (pieces.flatMap (·.patches)), s'.intents a = s.intents a
  done : ∀ piece ∈ pieces, piece.Done s'.intents
  bases : ∀ a, a ∈ s'.inOrderBases ↔
    a ∈ s.inOrderBases ∨ a ∈ pieces.flatMap (·.found s'.intents)
  nodup : (pieces.flatMap (·.found s'.intents)).Nodup
  fresh : ∀ a ∈ pieces.flatMap (·.found s'.intents), a ∉ s.inOrderBases
  below : ∀ piece ∈ pieces, ∀ a ∈ piece.found s'.intents, db.WeakDescendant piece.top a

theorem Outcome.nil (db : XTreeDatabase Nat Nat A) (s : OrderingState) :
    Outcome (P := P) db [] s s where
  lowers := Lowers.refl _
  frame _ _ := rfl
  done := by simp
  bases := by simp
  nodup := by simp
  fresh := by simp
  below := by simp

/-- **One piece, and then the others.** -/
theorem Outcome.cons {piece : Piece P} {pieces : List (Piece P)} {s₁ : OrderingState}
    (hdistinct : (ptrs ((piece :: pieces).flatMap (·.patches))).Nodup) (hlocal : piece.Local)
    (h : Outcome db [piece] s s₁) (h' : Outcome db pieces s₁ s') :
    Outcome db (piece :: pieces) s s' := by
  rw [List.flatMap_cons, ptrs, List.map_append, List.nodup_append'] at hdistinct
  have happart := hdistinct.2.2
  -- the others leave the intents of the piece
  have hsame : ∀ a ∈ ptrs piece.patches, s'.intents a = s₁.intents a := by
    intro a ha
    exact h'.frame a fun hmem => happart ha hmem
  obtain ⟨hfound, hdone⟩ := hlocal _ _ hsame
  have hone : ∀ f : Intents, [piece].flatMap (·.found f) = piece.found f := fun f =>
    List.flatMap_singleton _ _
  have hbases := h.bases
  have hnodup := h.nodup
  have hfresh := h.fresh
  rw [hone, ← hfound] at hnodup
  simp only [hone, ← hfound] at hbases hfresh
  -- each field from the piece where its patch is, by `hsame` where that is the first
  refine ⟨h.lowers.trans h'.lowers, ?_, ?_, ?_, ?_, ?_, ?_⟩
  · intro a ha
    rw [List.flatMap_cons, ptrs, List.map_append, List.mem_append, not_or] at ha
    rw [h'.frame a ha.2]
    refine h.frame a ?_
    rw [List.flatMap_singleton]
    exact ha.1
  · intro piece' hpiece'
    rcases List.mem_cons.mp hpiece' with rfl | hpiece'
    · exact hdone (h.done piece' (List.mem_singleton.mpr rfl))
    · exact h'.done piece' hpiece'
  · intro a
    rw [h'.bases, hbases, List.flatMap_cons, List.mem_append, or_assoc]
  · -- the others found only bases that were not there, those of the piece among them
    rw [List.flatMap_cons, List.nodup_append']
    refine ⟨hnodup, h'.nodup, ?_⟩
    intro a ha ha'
    exact h'.fresh a ha' ((hbases a).mpr (.inr ha))
  · intro a ha
    rw [List.flatMap_cons, List.mem_append] at ha
    rcases ha with ha | ha
    · exact hfresh a ha
    · intro hold
      exact h'.fresh a ha ((hbases a).mpr (.inl hold))
  · intro piece' hpiece' a ha
    rcases List.mem_cons.mp hpiece' with rfl | hpiece'
    · rw [hfound] at ha
      exact h.below piece' (List.mem_singleton.mpr rfl) a ha
    · exact h'.below piece' hpiece' a ha

/-- **The rule for a loop over pieces**: a turn that is ready does its piece, and the
turns after it stay ready. -/
theorem Outcome.loop (db : XTreeDatabase Nat Nat A) {E : Type}
    {body : OrderingState → E → Option OrderingState} (piece : E → Piece P)
    (Ready : E → OrderingState → Prop) (l : List E) :
    ∀ {s : OrderingState}, (ptrs ((l.map piece).flatMap (·.patches))).Nodup →
    (∀ e ∈ l, (piece e).Local) → (∀ e ∈ l, Ready e s) →
    (∀ e ∈ l, ∀ s, Ready e s → ∃ s', body s e = some s' ∧ Outcome db [piece e] s s') →
    l.Pairwise (fun e e' => ∀ s s', Ready e' s → Outcome db [piece e] s s' → Ready e' s') →
    ∃ s', l.foldlM body s = some s' ∧ Outcome db (l.map piece) s s' := by
  induction l with
  | nil =>
      intro s _ _ _ _ _
      exact ⟨s, rfl, Outcome.nil db s⟩
  | cons e l ih =>
      intro s hdistinct hlocal hready hturn hkeep
      obtain ⟨hhead, htail⟩ := List.pairwise_cons.mp hkeep
      obtain ⟨s₁, hbody, hone⟩ := hturn e List.mem_cons_self s (hready e List.mem_cons_self)
      have hdistinct' : (ptrs ((l.map piece).flatMap (·.patches))).Nodup := by
        rw [List.map_cons, List.flatMap_cons, ptrs, List.map_append, List.nodup_append'] at hdistinct
        exact hdistinct.2.1
      obtain ⟨s', hrest, hothers⟩ := ih hdistinct'
        (fun e he => hlocal e (List.mem_cons_of_mem _ he))
        (fun e' he' => hhead e' he' s s₁ (hready e' (List.mem_cons_of_mem _ he')) hone)
        (fun e he => hturn e (List.mem_cons_of_mem _ he)) htail
      exact ⟨s', foldlM_cons_eq_some.mpr ⟨s₁, hbody, hrest⟩,
        Outcome.cons hdistinct (hlocal e List.mem_cons_self) hone hothers⟩

/-! ## §4. The pass. -/

/-- The piece of a call: everything below a patch, relative to a link. -/
def goalPiece (db : XTreeDatabase Nat Nat A) (goal : Patch P × Nat) : Piece P where
  patches := goal.1.windIn
  found f := defaultBases f goal.1.windIn
  Done f := Ordered db f goal.1 goal.2
  top := goal.2

/-- The piece of a record: its base, and everything below its children. -/
def recordPiece (db : XTreeDatabase Nat Nat A) (r : Patch P) : Piece P where
  patches := windInAll r.children
  found f := r.base?.toList ++ defaultBases f (windInAll r.children)
  Done f := ∀ goal ∈ goals r, Ordered db f goal.1 goal.2
  top := r.base?.getD 0

theorem goalPiece_local (goal : Patch P × Nat) : (goalPiece db goal).Local := by
  intro f g h
  have h : SameDefaults f g goal.1.windIn := SameDefaults.of_eq h
  exact ⟨defaultBases_congr h, Ordered.congr h⟩

theorem recordPiece_local (r : Patch P) : (recordPiece db r).Local := by
  intro f g h
  have h : SameDefaults f g (windInAll r.children) := SameDefaults.of_eq h
  refine ⟨?_, ?_⟩
  · show r.base?.toList ++ _ = r.base?.toList ++ _
    rw [defaultBases_congr h]
  · intro hdone goal hgoal
    refine (hdone goal hgoal).congr ?_
    intro q hq
    exact h q (mem_windInAll.mpr ⟨goal.1, goals_child hgoal, hq⟩)

/-- The loop over the children is one over the goals. -/
theorem constrainChildren_eq {constrain : Patch P → Nat → OrderingState → Option OrderingState}
    (hvalid : ValidZone db r) {a : Nat} (ha : r.base? = some a) (s : OrderingState) :
    constrainChildrenToTerminii constrain r s
      = (goals r).foldlM (fun s goal => constrain goal.1 goal.2 s) s := by
  cases r with
  | free ptr zone originators cs => exact absurd ha (by simp [base?])
  | tree ptr zone intent originators cs =>
      -- the iterator over the terminii goes with the children
      have hzip : ∀ (cs : List (Patch P)) (ts : List Nat) (k : Nat) (s : OrderingState),
          ts.length = cs.length + k →
          (cs.zipIdx k).foldlM (fun s place => do
              let terminus ← ts[place.2]?
              constrain place.1 terminus s) s
            = (cs.zip (ts.drop k)).foldlM (fun s goal => constrain goal.1 goal.2 s) s := by
        intro cs ts
        induction cs with
        | nil =>
            intro k s _
            rfl
        | cons c cs ih =>
            intro k s hlen
            rw [List.length_cons] at hlen
            have hk : k < ts.length := by omega
            have hlen' : ts.length = cs.length + (k + 1) := by omega
            rw [List.zipIdx_cons, List.drop_eq_getElem_cons hk, List.zip_cons_cons,
              List.foldlM_cons, List.foldlM_cons]
            simp only [List.getElem?_eq_getElem hk, Option.bind_eq_bind, Option.bind_some]
            congr 1
            funext s₁
            exact ih (k + 1) s₁ hlen'
      show cs.zipIdx.foldlM _ s = _
      rw [hzip cs zone.terminii 0 s hvalid.2.1, List.drop_zero]
      rfl

/-- The loop over the records is one over the patches in order. -/
theorem recurse_accepted {constrain : Patch P → Nat → OrderingState → Option OrderingState}
    (records : List (PatchRecord P)) : ∀ s : OrderingState,
    records.foldlM (recurseRecord constrain) s
      = (accepted records).foldlM (fun s r => recurseRecord constrain s ⟨r, false⟩) s := by
  induction records with
  | nil =>
      intro s
      rfl
  | cons record records ih =>
      intro s
      rw [List.foldlM_cons]
      cases hout : record.outOfOrder with
      -- a record out of order is passed over
      | true =>
          have hskip : recurseRecord constrain s record = some s := by
            unfold recurseRecord
            rw [hout]
            rfl
          have hacc : accepted (record :: records) = accepted records := by
            unfold accepted
            rw [List.filter_cons_of_neg (by simp [hout])]
          rw [hskip, hacc]
          exact ih s
      | false =>
          have hrecord : record = ⟨record.patch, false⟩ := by
            cases record
            simpa using hout
          have hacc : accepted (record :: records) = record.patch :: accepted records := by
            unfold accepted
            rw [List.filter_cons_of_pos (by simp [hout]), List.map_cons]
          rw [hacc, List.foldlM_cons, ← hrecord]
          congr 1
          funext s₁
          exact ih s₁

/-- The goals of a record hold what is below its children. -/
theorem goalPieces_patches (hvalid : ValidZone db r) {a : Nat} (ha : r.base? = some a) :
    ((goals r).map (goalPiece db)).flatMap (·.patches) = windInAll r.children := by
  rw [windInAll_eq, ← goals_fst hvalid ha, List.flatMap_map, List.flatMap_map]
  rfl

theorem goalPieces_found (hvalid : ValidZone db r) {a : Nat} (ha : r.base? = some a) :
    ((goals r).map (goalPiece db)).flatMap (·.found f)
      = defaultBases f (windInAll r.children) := by
  unfold defaultBases
  rw [windInAll_eq, List.filterMap_flatMap, ← goals_fst hvalid ha, List.flatMap_map,
    List.flatMap_map]
  rfl

/-- **A record is a new base, and its goals.** -/
theorem Outcome.record (hvalid : ValidZone db r) {a : Nat} (ha : r.base? = some a)
    (hnew : a ∉ s.inOrderBases)
    (h : Outcome db ((goals r).map (goalPiece db))
      { s with inOrderBases := insert a s.inOrderBases } s') :
    Outcome db [recordPiece db r] s s' := by
  -- the goals begin with the record's base in the set, and end with all of theirs
  have hpatches := goalPieces_patches hvalid ha
  have hframe := h.frame
  have hbases := h.bases
  have hnodup := h.nodup
  have hfresh := h.fresh
  rw [hpatches] at hframe
  rw [goalPieces_found hvalid ha] at hnodup
  simp only [goalPieces_found hvalid ha] at hbases hfresh
  have hfound : [recordPiece db r].flatMap (·.found s'.intents)
      = a :: defaultBases s'.intents (windInAll r.children) := by
    rw [List.flatMap_singleton]
    show r.base?.toList ++ _ = _
    rw [ha]
    rfl
  refine ⟨h.lowers, ?_, ?_, ?_, ?_, ?_, ?_⟩
  · intro b hb
    rw [List.flatMap_singleton] at hb
    exact hframe b hb
  · intro piece hpiece
    rw [List.mem_singleton.mp hpiece]
    show ∀ goal ∈ goals r, Ordered db s'.intents goal.1 goal.2
    intro goal hgoal
    exact h.done _ (List.mem_map_of_mem hgoal)
  · intro b
    rw [hbases, hfound, Finset.mem_insert, List.mem_cons]
    tauto
  · rw [hfound, List.nodup_cons]
    exact ⟨fun hmem => hfresh a hmem (Finset.mem_insert_self _ _), hnodup⟩
  · intro b hb
    rw [hfound, List.mem_cons] at hb
    rcases hb with rfl | hb
    · exact hnew
    · exact fun hold => hfresh b hb (Finset.mem_insert_of_mem hold)
  · -- what is found is the base itself or below a terminus of the record
    intro piece hpiece b hb
    rw [List.mem_singleton.mp hpiece] at hb ⊢
    have htop : (recordPiece db r).top = a := by
      show r.base?.getD 0 = a
      rw [ha]
      rfl
    rw [htop]
    have hb : b ∈ [recordPiece db r].flatMap (·.found s'.intents) := by
      rw [List.flatMap_singleton]
      exact hb
    rw [hfound, List.mem_cons] at hb
    rcases hb with rfl | hb
    · exact Relation.ReflTransGen.refl
    · rw [← goalPieces_found hvalid ha] at hb
      obtain ⟨piece', hpiece', hb⟩ := List.mem_flatMap.mp hb
      obtain ⟨goal, hgoal, rfl⟩ := List.mem_map.mp hpiece'
      have hdown := h.below _ hpiece' b hb
      exact (goals_terminus hvalid hgoal ha).2.trans hdown

/-- A record of the next patches may still be accepted. -/
def Ready (r : Patch P) (s : OrderingState) : Prop :=
  ∀ a, r.base? = some a → a ∉ s.inOrderBases

/-- What is accepted below one patch does not take the base of a later one. -/
theorem Ready.keep {r r' : Patch P} {a : Nat} (ha : r.base? = some a)
    (hapart : ∀ a b, r.base? = some a → r'.base? = some b →
      DFBefore db a b ∧ ¬ db.Ancestor a b)
    (hready : Ready r' s) (h : Outcome db [recordPiece db r] s s') : Ready r' s' := by
  intro b hb hmem
  rcases (h.bases b).mp hmem with hold | hfound
  · exact hready b hb hold
  · rw [List.flatMap_singleton] at hfound
    have hdown := h.below _ (List.mem_singleton.mpr rfl) b hfound
    have htop : (recordPiece db r).top = a := by
      show r.base?.getD 0 = a
      rw [ha]
      rfl
    rw [htop] at hdown
    obtain ⟨hbefore, hnot⟩ := hapart a b ha hb
    rcases Relation.reflTransGen_iff_eq_or_transGen.mp hdown with rfl | htrans
    · exact (DepthFirstRelation.compare3Way_threeWay db).irrefl _ hbefore
    · exact hnot htrans

/-- **A call from the records it recurses on.** -/
theorem Outcome.call (s₁ : OrderingState) (hdistinct : (ptrs p.windIn).Nodup)
    (hvalid : ValidZones db p) (hlowers : Lowers s.intents s₁.intents)
    (hframe : ∀ a ∉ ptrs p.windIn, s₁.intents a = s.intents a)
    (hsame : s₁.inOrderBases = s.inOrderBases)
    (haccepts : Accepts db s.inOrderBases base (nextDescendants s₁.intents p))
    (h : Outcome db ((nextDescendants s₁.intents p).map (recordPiece db)) s₁ s') :
    Outcome db [goalPiece db (p, base)] s s' := by
  -- the records and what is below them are all of the call
  have hpatches : ((nextDescendants s₁.intents p).map (recordPiece db)).flatMap (·.patches)
      = (nextDescendants s₁.intents p).flatMap fun r => windInAll r.children := by
    rw [List.flatMap_map]
    rfl
  have hbelow : ∀ a ∈ ptrs ((nextDescendants s₁.intents p).flatMap fun r =>
      windInAll r.children), ∃ r ∈ nextDescendants s₁.intents p,
        a ∈ ptrs (windInAll r.children) := by
    intro a ha
    obtain ⟨q, hq, rfl⟩ := List.mem_map.mp ha
    obtain ⟨r, hr, hq⟩ := List.mem_flatMap.mp hq
    exact ⟨r, hr, List.mem_map_of_mem hq⟩
  have hframe' := h.frame
  rw [hpatches] at hframe'
  -- the next patches keep their intents
  have hnext : nextDescendants s'.intents p = nextDescendants s₁.intents p := by
    refine nextDescendants_keep h.lowers.ne_default ?_
    intro r hr
    rw [hframe' r.ptr ?_]
    · exact (mem_nextDescendants hr).1
    · intro hmem
      obtain ⟨r', hr', hmem⟩ := hbelow _ hmem
      exact ptr_notMem_below hdistinct hr' hr hmem
  -- so what the records find is what the call finds
  have hfound : [goalPiece db (p, base)].flatMap (·.found s'.intents)
      = ((nextDescendants s₁.intents p).map (recordPiece db)).flatMap
          (·.found s'.intents) := by
    rw [List.flatMap_singleton, List.flatMap_map, ← hnext]
    exact defaultBases_eq p
  have hordered : Accepts db ∅ base (nextDescendants s₁.intents p) := by
    refine ⟨?_, haccepts.sorted⟩
    intro r hr
    obtain ⟨a, ha, hkeys, hdown, _⟩ := haccepts.below r hr
    exact ⟨a, ha, hkeys, hdown, Finset.notMem_empty a⟩
  refine ⟨hlowers.trans h.lowers, ?_, ?_, ?_, ?_, ?_, ?_⟩
  · intro a ha
    rw [List.flatMap_singleton] at ha
    rw [hframe' a ?_, hframe a ha]
    intro hmem
    obtain ⟨r, hr, hmem⟩ := hbelow a hmem
    obtain ⟨q, hq, rfl⟩ := List.mem_map.mp hmem
    have hq : q ∈ r.windIn := by
      rw [windIn_eq]
      exact List.mem_cons_of_mem _ hq
    have hsub := windIn_sublist (mem_windIn_of_nextDescendants hr)
    exact ha (List.mem_map_of_mem (hsub.subset hq))
  · intro piece hpiece
    rw [List.mem_singleton.mp hpiece]
    refine Ordered.of_next hvalid ?_ ?_
    · rw [hnext]
      exact hordered
    · intro r hr goal hgoal
      rw [hnext] at hr
      exact h.done _ (List.mem_map_of_mem hr) goal hgoal
  · intro a
    rw [h.bases, hsame, hfound]
  · rw [hfound]
    exact h.nodup
  · intro a ha
    rw [hfound] at ha
    rw [← hsame]
    exact h.fresh a ha
  · -- what a record finds is below it, and it is below the base of the call
    intro piece hpiece a ha
    rw [List.mem_singleton.mp hpiece] at ha ⊢
    have ha : a ∈ [goalPiece db (p, base)].flatMap (·.found s'.intents) := by
      rw [List.flatMap_singleton]
      exact ha
    rw [hfound] at ha
    obtain ⟨piece', hpiece', ha⟩ := List.mem_flatMap.mp ha
    have hdown := h.below piece' hpiece' a ha
    obtain ⟨r, hr, rfl⟩ := List.mem_map.mp hpiece'
    obtain ⟨b, hb, _, hdown', _⟩ := haccepts.below r hr
    have htop : (recordPiece db r).top = b := by
      show r.base?.getD 0 = b
      rw [hb]
      rfl
    rw [htop] at hdown
    exact hdown'.trans hdown

/-- **One record**: when the calls for its goals return, its turn does. -/
theorem recurseRecord_spec {constrain : Patch P → Nat → OrderingState → Option OrderingState}
    (hvalid : ValidZone db r) (hdistinct : (ptrs (windInAll r.children)).Nodup) {a : Nat}
    (ha : r.base? = some a) (hready : Ready r s)
    (hcall : ∀ goal ∈ goals r, ∀ t : OrderingState, ∃ t',
      constrain goal.1 goal.2 t = some t' ∧ Outcome db [goalPiece db goal] t t') :
    ∃ s', recurseRecord constrain s ⟨r, false⟩ = some s'
      ∧ Outcome db [recordPiece db r] s s' := by
  have hpieces : (ptrs (((goals r).map (goalPiece db)).flatMap (·.patches))).Nodup := by
    rw [goalPieces_patches hvalid ha]
    exact hdistinct
  obtain ⟨s', hrun, hout⟩ := Outcome.loop db (goalPiece db) (fun _ _ => True) (goals r)
    (s := { s with inOrderBases := insert a s.inOrderBases }) hpieces
    (fun goal _ => goalPiece_local goal) (fun _ _ => trivial)
    (fun goal hgoal t _ => hcall goal hgoal t)
    (List.pairwise_of_forall fun _ _ _ _ _ _ => trivial)
  refine ⟨s', ?_, Outcome.record hvalid ha (hready a ha) hout⟩
  unfold recurseRecord
  rw [if_neg (by simp)]
  show (do
    let base ← r.base?
    let inOrderBases ← insertSolo s.inOrderBases base
    constrainChildrenToTerminii _ r { s with inOrderBases := inOrderBases }) = _
  rw [ha]
  dsimp only [Option.bind_eq_bind, Option.bind_some]
  unfold insertSolo
  rw [if_neg (hready a ha), Option.bind_some, constrainChildren_eq hvalid ha]
  exact hrun

/-- **`ConstrainAnyPatchToDescendants` returns**, and leaves the layout in order below the
link. -/
theorem constrain_spec (fuel : Nat) : ∀ {p : Patch P} {base : Nat} {s : OrderingState},
    p.windIn.length < fuel → base ∈ db.rows.keys → (ptrs p.windIn).Nodup → ValidZones db p →
    ∃ s', constrainAnyPatchToDescendants db fuel p base s = some s'
      ∧ Outcome db [goalPiece db (p, base)] s s' := by
  -- by induction on the fuel: a patch has fewer patches below it than fuel is left
  induction fuel with
  | zero =>
      intro p base s hfuel
      omega
  | succ fuel ih =>
      intro p base s hfuel hbase hdistinct hvalid
      have hrows : ∀ q ∈ p.windIn, ∀ a, q.base? = some a → a ∈ db.rows.keys := by
        intro q hq a ha
        have hzone := hvalid q hq
        cases q with
        | tree ptr zone intent originators cs =>
            obtain rfl : zone.base = a := Option.some.inj ha
            exact hzone.1
        | free ptr zone originators cs => exact absurd ha (by simp [base?])
      have hcount : defaultCount s.intents p.windIn < p.windIn.length + 1 :=
        Nat.lt_succ_of_le List.countP_le_length
      -- the loop settles on records that are in order below the base
      obtain ⟨records, g, hsettle, hlowers, hframe, haccepted, haccepts⟩ :=
        settle_spec s.inOrderBases hbase hdistinct hrows _ hcount
      unfold constrainAnyPatchToDescendants
      dsimp only
      rw [hsettle]
      dsimp only [Option.bind_eq_bind, Option.bind_some]
      rw [recurse_accepted, haccepted]
      -- one record
      have hturn : ∀ r ∈ nextDescendants g p, ∀ t : OrderingState, Ready r t → ∃ t',
          recurseRecord (constrainAnyPatchToDescendants db fuel) t ⟨r, false⟩ = some t'
            ∧ Outcome db [recordPiece db r] t t' := by
        intro r hr t hready
        have hmem := mem_windIn_of_nextDescendants hr
        have hvalidr := hvalid r hmem
        obtain ⟨_, a, ha⟩ := mem_nextDescendants hr
        have hdistinctr : (ptrs (windInAll r.children)).Nodup := by
          have hone := nodup_nextDescendants (f := g) hdistinct
          rw [ptrs, List.map_flatMap, List.nodup_flatMap] at hone
          have hself := hone.1 r hr
          rw [windIn_eq, List.map_cons, List.nodup_cons] at hself
          exact hself.2
        have hlen := (windIn_sublist hmem).length_le
        rw [windIn_eq r, List.length_cons] at hlen
        refine recurseRecord_spec hvalidr hdistinctr ha hready ?_
        intro goal hgoal t
        have hchild := goals_child hgoal
        have hsub := child_sublist hchild
        have hlenc := hsub.length_le
        have hfuelc : goal.1.windIn.length < fuel := by omega
        exact ih hfuelc (goals_terminus hvalidr hgoal ha).1
          (hdistinctr.sublist (hsub.map ptr)) ((hvalid.of_mem hmem).child hchild)
      -- their patches are different ones
      have hpieces : (ptrs (((nextDescendants g p).map (recordPiece db)).flatMap
          (·.patches))).Nodup := by
        have hall := nodup_nextDescendants (f := g) hdistinct
        refine hall.sublist (List.Sublist.map ptr ?_)
        rw [List.flatMap_map]
        refine List.Sublist.flatMap_right _ ?_
        intro r _
        rw [windIn_eq]
        exact List.sublist_cons_self _ _
      -- so the loop over the records goes piece by piece
      obtain ⟨s', hrun, hout⟩ := Outcome.loop db (recordPiece db) Ready
        (nextDescendants g p) (s := ⟨g, s.inOrderBases⟩) hpieces
        (fun r _ => recordPiece_local r) (by
          intro r hr a ha
          obtain ⟨a', ha', _, _, hnew⟩ := haccepts.below r hr
          obtain rfl := Option.some.inj (ha.symm.trans ha')
          exact hnew) hturn (by
          refine haccepts.sorted.imp_of_mem ?_
          intro r r' hr _ hapart t t' hready hone
          obtain ⟨a, ha, _⟩ := haccepts.below r hr
          exact Ready.keep ha hapart hready hone)
      exact ⟨s', hrun, Outcome.call ⟨g, s.inOrderBases⟩ hdistinct hvalid hlowers hframe rfl
        haccepts hout⟩

end Inferno.UP
