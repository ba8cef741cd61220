/-
  Inferno.UP.MergeLoop
  ────────────────────
  The loop that merges free zones with the free zones at their terminii.

    • `Recorded`    — what is assigned: no originator is lost, and each new assignment leads to
                      the base of its patch,
    • `LoopReady`, `LoopMerged` — a free zone with its children before the merges, and with what
                      is left of them,
    • `mergeLoop_means` — the loop ends, and the zone with what is left stands for the same.
-/
import Inferno.UP.CopyMeaning

namespace Inferno.UP

open Inferno.Common Inferno.DB Inferno.Lib Inferno.Lib.Term Update TreeHeap

variable {P : Type} [LinearOrder P]

/-! ## §1. Runs with assignments. -/

section

variable {A B : Type} {h h' : TreeHeap} {a a' : ReplaceAssignments P}

omit [LinearOrder P] in
theorem runs_bind {x : Assigning P A} {f : A → Assigning P B} {r : A}
    (hx : x a h = some ((r, a'), h')) : (x >>= f) a h = f r a' h' := by
  show (x a >>= fun s => f s.1 s.2) h = _
  exact run_bind hx

omit [LinearOrder P] in
theorem runs_lift {x : Update A} {r : A} (hx : x h = some (r, h')) :
    (liftM x : Assigning P A) a h = some ((r, a), h') := by
  show (x >>= fun r => pure (r, a)) h = _
  exact run_bind hx

end

/-- A policy that goes by the kind of node at the base of the child. -/
def Picks (policy : FreeZone → FreeZone → Update Bool) (picks : NodeKind → Bool) : Prop :=
  ∀ (h : TreeHeap) (zone childZone : FreeZone) (b : Nat), childZone.base = some b →
    policy zone childZone h = some (picks (h.nodeAt b).kind, h)

/-! ## §2. What is assigned. -/

section

variable {h h' h₁ h₂ : TreeHeap} {a a' a₁ a₂ : ReplaceAssignments P} {Q : Region}
  {originators : Originators P} {x y b : Nat} {p : P} {ps ps' qs qs' : List (Patch P)}
  {assign : Bool}

theorem foldl_insertNew (plinks : List P) : ∀ {a : ReplaceAssignments P},
    (∀ p ∈ plinks, p ∈ (plinks.foldl (fun a plink => a.insertNew plink x) a).keys)
      ∧ (∀ p y, a.lookup p = some y →
        (plinks.foldl (fun a plink => a.insertNew plink x) a).lookup p = some y)
      ∧ ∀ p y, (plinks.foldl (fun a plink => a.insertNew plink x) a).lookup p = some y →
        a.lookup p = some y ∨ p ∈ plinks ∧ y = x := by
  induction plinks with
  | nil =>
      intro a
      exact ⟨fun p hp => absurd hp List.not_mem_nil, fun p y hy => hy, fun p y hy => Or.inl hy⟩
  | cons q plinks ih =>
      intro a
      -- `insert` leaves an entry that is there
      have hself : q ∈ (a.insertNew q x).keys := by
        unfold StdMap.insertNew
        split
        · assumption
        · exact StdMap.mem_keys_set_self a q x
      have hkept : ∀ p y, a.lookup p = some y → (a.insertNew q x).lookup p = some y := by
        intro p y hy
        unfold StdMap.insertNew
        split
        · exact hy
        · rename_i hq
          have hne : p ≠ q := fun heq => hq (heq ▸ StdMap.mem_keys_of_lookup hy)
          rw [StdMap.lookup_set, if_neg hne]
          exact hy
      have hnew : ∀ p y, (a.insertNew q x).lookup p = some y →
          a.lookup p = some y ∨ p = q ∧ y = x := by
        intro p y hy
        unfold StdMap.insertNew at hy
        split at hy
        · exact Or.inl hy
        · rw [StdMap.lookup_set] at hy
          split at hy
          · exact Or.inr ⟨‹p = q›, (Option.some.inj hy).symm⟩
          · exact Or.inl hy
      obtain ⟨hmem, hlater, hfrom⟩ := ih (a := a.insertNew q x)
      refine ⟨?_, fun p y hy => hlater p y (hkept p y hy), ?_⟩
      · intro p hp
        rcases List.mem_cons.mp hp with rfl | hp
        · obtain ⟨v, hv⟩ := StdMap.exists_of_mem_keys hself
          exact StdMap.mem_keys_of_lookup (hlater _ v hv)
        · exact hmem p hp
      · intro p y hy
        rcases hfrom p y hy with hy | ⟨hp, rfl⟩
        · rcases hnew p y hy with hy | ⟨rfl, rfl⟩
          · exact Or.inl hy
          · exact Or.inr ⟨List.mem_cons_self, rfl⟩
        · exact Or.inr ⟨List.mem_cons_of_mem _ hp, rfl⟩

/-- A link that leads to a node. -/
def Leads (h : TreeHeap) (x b : Nat) : Prop := x < h.nextLink ∧ h.childOf x = some b

theorem Leads.later (hleads : Leads h x b) (hsteps : ChangesOnly h h' Q) : Leads h' x b :=
  ⟨Nat.lt_of_lt_of_le hleads.1 hsteps.link_le, hsteps.keeps x hleads.1 b hleads.2⟩

/-- The node at the base of a free patch. -/
def Patch.freeBase : Patch P → Option Nat
  | .tree .. => none
  | .free _ zone _ _ => zone.base

/-- **What a pass records** of the patches `ps`, of which `ps'` are left: the assignments stay;
an originator is not lost; and a new assignment is a link that leads to the base of the patch
of the originator. -/
structure Recorded (assign : Bool) (h' : TreeHeap) (ps ps' : List (Patch P))
    (a a' : ReplaceAssignments P) : Prop where
  kept : ∀ p x, a.lookup p = some x → a'.lookup p = some x
  none_lost : assign = true → ∀ q ∈ ps, ∀ p ∈ q.originators,
    p ∈ a'.keys ∨ ∃ q' ∈ ps', p ∈ q'.originators
  at_base : ∀ p x, a'.lookup p = some x → a.lookup p = some x
    ∨ ∃ q ∈ ps, p ∈ q.originators ∧ ∃ b, q.freeBase = some b ∧ Leads h' x b

omit [LinearOrder P] in
theorem Recorded.refl (assign : Bool) (h : TreeHeap) (ps : List (Patch P))
    (a : ReplaceAssignments P) : Recorded assign h ps ps a a where
  kept _ _ hx := hx
  none_lost _ q hq _ hp := Or.inr ⟨q, hq, hp⟩
  at_base _ _ hx := Or.inl hx

omit [LinearOrder P] in
/-- A patch that stays, with its originators. -/
theorem Recorded.cons {q q' : Patch P} (hrecorded : Recorded assign h ps ps' a a')
    (horiginators : q'.originators = q.originators) :
    Recorded assign h (q :: ps) (q' :: ps') a a' where
  kept := hrecorded.kept
  none_lost hassign r hr p hp := by
    rcases List.mem_cons.mp hr with rfl | hr
    · exact Or.inr ⟨q', List.mem_cons_self, horiginators ▸ hp⟩
    · rcases hrecorded.none_lost hassign r hr p hp with hkey | ⟨r', hr', hp'⟩
      · exact Or.inl hkey
      · exact Or.inr ⟨r', List.mem_cons_of_mem _ hr', hp'⟩
  at_base p x hx := by
    rcases hrecorded.at_base p x hx with hx | ⟨r, hr, hp, hbase⟩
    · exact Or.inl hx
    · exact Or.inr ⟨r, List.mem_cons_of_mem _ hr, hp, hbase⟩

omit [LinearOrder P] in
/-- Two lists of patches, one after the other. -/
theorem Recorded.append (h1 : Recorded assign h₁ ps ps' a a₁) (hsteps : ChangesOnly h₁ h₂ Q)
    (h2 : Recorded assign h₂ qs qs' a₁ a₂) :
    Recorded assign h₂ (ps ++ qs) (ps' ++ qs') a a₂ where
  kept p x hx := h2.kept p x (h1.kept p x hx)
  none_lost hassign q hq p hp := by
    rcases List.mem_append.mp hq with hq | hq
    · rcases h1.none_lost hassign q hq p hp with hkey | ⟨q', hq', hp'⟩
      · obtain ⟨x, hx⟩ := StdMap.exists_of_mem_keys hkey
        exact Or.inl (StdMap.mem_keys_of_lookup (h2.kept p x hx))
      · exact Or.inr ⟨q', List.mem_append_left _ hq', hp'⟩
    · rcases h2.none_lost hassign q hq p hp with hkey | ⟨q', hq', hp'⟩
      · exact Or.inl hkey
      · exact Or.inr ⟨q', List.mem_append_right _ hq', hp'⟩
  at_base p x hx := by
    rcases h2.at_base p x hx with hx | ⟨q, hq, hp, b, hb, hleads⟩
    · rcases h1.at_base p x hx with hx | ⟨q, hq, hp, b, hb, hleads⟩
      · exact Or.inl hx
      · exact Or.inr ⟨q, List.mem_append_left _ hq, hp, b, hb, hleads.later hsteps⟩
    · exact Or.inr ⟨q, List.mem_append_right _ hq, hp, b, hb, hleads⟩

omit [LinearOrder P] in
/-- A second step, on what the first left; its patches are the first's, but for the zones. -/
theorem Recorded.trans (h1 : Recorded assign h₁ ps qs a a₁) (hsteps : ChangesOnly h₁ h₂ Q)
    (h2 : Recorded assign h₂ qs ps' a₁ a₂) (htraced : ∀ q' ∈ qs, ∃ q ∈ ps,
      q'.originators = q.originators ∧ q'.freeBase = q.freeBase) :
    Recorded assign h₂ ps ps' a a₂ where
  kept p x hx := h2.kept p x (h1.kept p x hx)
  none_lost hassign q hq p hp := by
    rcases h1.none_lost hassign q hq p hp with hkey | ⟨q', hq', hp'⟩
    · obtain ⟨x, hx⟩ := StdMap.exists_of_mem_keys hkey
      exact Or.inl (StdMap.mem_keys_of_lookup (h2.kept p x hx))
    · exact h2.none_lost hassign q' hq' p hp'
  at_base p x hx := by
    rcases h2.at_base p x hx with hx | ⟨q', hq', hp, b, hb, hleads⟩
    · rcases h1.at_base p x hx with hx | ⟨q, hq, hp, b, hb, hleads⟩
      · exact Or.inl hx
      · exact Or.inr ⟨q, hq, hp, b, hb, hleads.later hsteps⟩
    · obtain ⟨q, hq, horiginators, hbase⟩ := htraced q' hq'
      exact Or.inr ⟨q, hq, horiginators ▸ hp, b, hbase ▸ hb, hleads⟩

/-- The assignments after one merge. -/
def joined (assign : Bool) (originators : Originators P) (xlink : Option Nat)
    (a : ReplaceAssignments P) : ReplaceAssignments P :=
  match xlink with
  | some x => if assign then assignAll originators x a else a
  | none => a

/-- One patch that is merged is recorded. -/
theorem joined_recorded {ptr : Nat} {zone : FreeZone} {children : List (Patch P)}
    {xlink : Option Nat} (hbase : zone.base = some b)
    (hxlink : assign = true → ∃ x, xlink = some x ∧ Leads h x b) :
    Recorded assign h [.free ptr zone originators children] [] a
      (joined assign originators xlink a) := by
  cases assign with
  | false =>
      have hsame : joined false originators xlink a = a := by
        cases xlink <;> rfl
      rw [hsame]
      exact ⟨fun p x hx => hx, fun hfalse => absurd hfalse Bool.false_ne_true,
        fun p x hx => Or.inl hx⟩
  | true =>
      obtain ⟨x, rfl, hleads⟩ := hxlink rfl
      obtain ⟨hmem, hlater, hfrom⟩ := foldl_insertNew (x := x) (inOrder originators) (a := a)
      refine ⟨hlater, ?_, ?_⟩
      · intro _ q hq p hp
        obtain rfl := List.mem_singleton.mp hq
        exact Or.inl (hmem p (mem_inOrder.mpr hp))
      · intro p y hy
        rcases hfrom p y hy with hy | ⟨hp, rfl⟩
        · exact Or.inl hy
        · exact Or.inr ⟨_, List.mem_singleton_self _, mem_inOrder.mp hp, b, hbase, hleads⟩

end

namespace Patch

section

variable {policy : FreeZone → FreeZone → Update Bool} {assign : Bool} {h h₁ h' : TreeHeap}
  {zone zone' : FreeZone} {i : Nat} {rest rest' : List (Patch P)} {a a' : ReplaceAssignments P}

/-- A tree patch stays. -/
theorem mergeLoop_tree {ptr : Nat} {childZone : TreeZone} {intent : Intent}
    {originators : Originators P} {children : List (Patch P)} (hi : i < zone.terminii.length)
    (hrest : mergeLoop policy assign zone (i + 1) rest a h = some (((zone', rest'), a'), h')) :
    mergeLoop policy assign zone i (.tree ptr childZone intent originators children :: rest) a h
      = some (((zone', .tree ptr childZone intent originators children :: rest'), a'), h') := by
  rw [mergeLoop]
  refine (runs_bind (runs_lift (run_assert hi h))).trans ?_
  exact (runs_bind hrest).trans rfl

/-- A free patch that the policy does not pick stays. -/
theorem mergeLoop_keep {ptr : Nat} {childZone : FreeZone} {originators : Originators P}
    {children : List (Patch P)} {t : Mutator} (ht : zone.terminii[i]? = some t)
    (hpolicy : policy zone childZone h = some (false, h))
    (hrest : mergeLoop policy assign zone (i + 1) rest a h = some (((zone', rest'), a'), h')) :
    mergeLoop policy assign zone i (.free ptr childZone originators children :: rest) a h
      = some (((zone', .free ptr childZone originators children :: rest'), a'), h') := by
  rw [mergeLoop, ht]
  refine (runs_bind (runs_lift hpolicy)).trans ?_
  rw [if_neg Bool.false_ne_true]
  exact (runs_bind hrest).trans rfl

theorem run_tryGetContainerBase {z : FreeZone} {b : Nat} (hbase : z.base = some b) :
    z.tryGetContainerBase h
      = some (if (h.nodeAt b).kind = .subContainer then some b else none, h) := by
  unfold FreeZone.tryGetContainerBase
  rw [hbase]
  by_cases hkind : (h.nodeAt b).kind = .subContainer
  · have hcontainer : isContainerInterface (some b) h = some (true, h) := by
      show some (decide ((h.nodeAt b).kind = .subContainer), h) = _
      rw [decide_eq_true hkind]
    rw [if_pos hkind]
    exact (run_bind hcontainer).trans rfl
  · rw [if_neg hkind]
    exact (run_bind (run_isContainerInterface hkind)).trans rfl

/-- A free patch that the policy picks is merged, and its children come in its place. -/
theorem mergeLoop_merge {ptr b : Nat} {childZone zone₁ : FreeZone} {originators : Originators P}
    {children : List (Patch P)} {t : Mutator} {j : Nat} {xlink : Option Nat}
    (ht : zone.terminii[i]? = some t) (hpolicy : policy zone childZone h = some (true, h))
    (hbase : childZone.base = some b)
    (haccept : (h.nodeAt b).kind = .subContainer → t.mode = .container)
    (hmerge : zone.mergeTerminus i childZone true h = some ((zone₁, j, xlink), h₁))
    (hassign : assign = true → ∃ x n, xlink = some x ∧ h₁.childOf x = some n
      ∧ (originators ≠ ∅ → (h₁.nodeAt n).kind ≠ .scaffold))
    (hrest : mergeLoop policy assign zone₁ j rest (joined assign originators xlink a) h₁
      = some (((zone', rest'), a'), h')) :
    mergeLoop policy assign zone i (.free ptr childZone originators children :: rest) a h
      = some (((zone', children ++ rest'), a'), h') := by
  -- the assertion on containers does not fail
  have hcontainer : ∀ {B : Type} (f : PUnit → Assigning P B) (a : ReplaceAssignments P),
      (liftM childZone.tryGetContainerBase >>= fun container =>
        if container.isSome = true then liftM (assert (t.canAcceptContainer = true)) >>= f
        else f () : Assigning P B) a h = f () a h := by
    intro B f a
    refine (runs_bind (runs_lift (run_tryGetContainerBase hbase))).trans ?_
    by_cases hkind : (h.nodeAt b).kind = .subContainer
    · rw [if_pos hkind]
      have haccept' : t.canAcceptContainer := by
        rw [Mutator.canAcceptContainer, haccept hkind]
        rfl
      exact runs_bind (runs_lift (run_assert haccept' h))
    · rw [if_neg hkind]
      rfl
  cases assign with
  | false =>
      -- without assignments, the link is not looked at
      have hsame : joined false originators xlink a = a := by
        cases xlink <;> rfl
      rw [hsame] at hrest
      rw [mergeLoop, ht]
      refine (runs_bind (runs_lift hpolicy)).trans ?_
      rw [if_pos rfl]
      refine (hcontainer _ a).trans ?_
      refine (runs_bind (runs_lift hmerge)).trans ?_
      exact (runs_bind hrest).trans rfl
  | true =>
      obtain ⟨x, n, rfl, hchild, hkind⟩ := hassign rfl
      have hscaffold : originators ≠ ∅ → assertNoScaffold x h₁ = some ((), h₁) := by
        intro hne
        have hget : getChild x h₁ = some (some n, h₁) := by
          show some (h₁.childOf x, h₁) = _
          rw [hchild]
        exact (run_bind hget).trans (run_assert (hkind hne) h₁)
      have hguard : ∀ {B : Type} (f : PUnit → Assigning P B) (a : ReplaceAssignments P),
          (if originators ≠ ∅ then liftM (assertNoScaffold x) >>= f else f () : Assigning P B) a h₁
            = f () a h₁ := by
        intro B f a
        by_cases hne : originators ≠ ∅
        · rw [if_pos hne]
          exact runs_bind (runs_lift (hscaffold hne))
        · rw [if_neg hne]
      have hmodify : (modify (UP.assignAll originators x) : Assigning P PUnit) a h₁
          = some ((PUnit.unit, UP.assignAll originators x a), h₁) := rfl
      rw [mergeLoop, ht]
      refine (runs_bind (runs_lift hpolicy)).trans ?_
      rw [if_pos rfl]
      refine (hcontainer _ a).trans ?_
      refine (runs_bind (runs_lift hmerge)).trans ?_
      dsimp only
      rw [if_pos rfl]
      refine (hguard _ a).trans ?_
      refine (runs_bind hmodify).trans ?_
      exact (runs_bind hrest).trans rfl

end

/-! ## §3. What is left of the children. -/

/-- No free child that the policy picks is left below a free patch. -/
def Settled (h : TreeHeap) (picks : NodeKind → Bool) : Patch P → Prop
  | .tree .. => True
  | .free _ _ _ children => ∀ c ∈ children, ∀ kind ∈ c.baseKind h, picks kind = false

/-- The tree zones of a layout. -/
def treeZones (cs : List (Patch P)) : List (TreeZone × Intent) :=
  (windInAll cs).filterMap treeZone?

omit [LinearOrder P] in
theorem windInAll_append (cs ds : List (Patch P)) :
    windInAll (cs ++ ds) = windInAll cs ++ windInAll ds := by
  rw [windInAll_eq, windInAll_eq, windInAll_eq, List.flatMap_append]

omit [LinearOrder P] in
theorem windInAll_free (ptr : Nat) (zone : FreeZone) (originators : Originators P)
    (children cs : List (Patch P)) : windInAll (.free ptr zone originators children :: cs)
      = .free ptr zone originators children :: (windInAll children ++ windInAll cs) := by
  rw [windInAll_eq, List.flatMap_cons, windIn_eq, ← windInAll_eq]
  rfl

omit [LinearOrder P] in
theorem treeZones_append (cs ds : List (Patch P)) :
    treeZones (cs ++ ds) = treeZones cs ++ treeZones ds := by
  unfold treeZones
  rw [windInAll_append, List.filterMap_append]

omit [LinearOrder P] in
theorem treeZones_tree (ptr : Nat) (zone : TreeZone) (intent : Intent)
    (originators : Originators P) (cs : List (Patch P)) :
    treeZones [.tree ptr zone intent originators cs] = (zone, intent) :: treeZones cs := by
  unfold treeZones
  rw [windInAll_eq, List.flatMap_singleton, windIn_eq]
  rfl

omit [LinearOrder P] in
theorem treeZones_free (ptr : Nat) (zone : FreeZone) (originators : Originators P)
    (cs : List (Patch P)) : treeZones [.free ptr zone originators cs] = treeZones cs := by
  unfold treeZones
  rw [windInAll_eq, List.flatMap_singleton, windIn_eq]
  rfl

/-- The slots of a zone. -/
abbrev slots (z : FreeZone) : List Nat := z.terminii.map Mutator.slot

variable {h h₁ h' : TreeHeap} {D Q R R₀ R₁ R₀' R₁' S : Region} {us us' : List Content}
  {tss tss' : List (List Content)} {zone zone₁ zone' : FreeZone} {i : Nat}
  {cs cs' ds rest : List (Patch P)} {picks : NodeKind → Bool}

omit [LinearOrder P] in
/-- It stays so. -/
theorem Settled.later {p : Patch P} {ts : List Content} (hsettled : Settled h picks p)
    (hmeans : Means h D p R ts) (hsteps : ChangesOnly h h' Q) : Settled h' picks p := by
  cases p with
  | tree ptr zone intent originators children => trivial
  | free ptr zone originators children =>
      intro c hc kind hkind
      obtain ⟨S, vs, hsub⟩ := hmeans.sub _ _ _ c
        (windIn_of_child (p := .free ptr zone originators children) hc (mem_windIn_self c))
      rw [hsub.baseKind_eq hsteps] at hkind
      exact hsettled c hc kind hkind

/-- Children fit the terminii that they are at. -/
def FitAll (h : TreeHeap) (assign : Bool) (terminii : List Mutator) (cs : List (Patch P)) : Prop :=
  ∀ r ∈ terminii.zip cs, ∀ kind ∈ r.2.baseKind h, Fits assign r.1.mode r.2.originators kind

/-- **A free zone and its children before the merges** at the terminii from `i` on. -/
structure LoopReady (h : TreeHeap) (D : Region) (assign : Bool) (zone : FreeZone) (i : Nat)
    (R₀ R₁ : Region) (us : List Content) (tss : List (List Content)) (cs : List (Patch P)) :
    Prop where
  owned : h.Owned D
  zone_apart : Disjoint R₀ D
  children_apart : Disjoint R₁ D
  apart : Disjoint R₀ R₁
  in_memory : R₁ ≤ used h
  reads : h.ReadsFree R₀ zone us
  means : MeansAll h D cs R₁ tss
  length : zone.terminii.length = i + cs.length
  fits : FitAll h assign (zone.terminii.drop i) cs

namespace LoopReady

variable {assign : Bool} {c : Patch P} {Rr : Region} {tssr : List (List Content)}

omit [LinearOrder P] in
/-- The terminus that the next child is at. -/
theorem terminus (hready : LoopReady h D assign zone i R₀ R₁ us tss (c :: rest)) :
    ∃ t, zone.terminii[i]? = some t
      ∧ (∀ kind ∈ c.baseKind h, Fits assign t.mode c.originators kind)
      ∧ FitAll h assign (zone.terminii.drop (i + 1)) rest := by
  have hi : i < zone.terminii.length := by
    rw [hready.length, List.length_cons]
    omega
  have hfits := hready.fits
  rw [List.drop_eq_getElem_cons hi] at hfits
  unfold FitAll at hfits
  rw [List.zip_cons_cons, List.forall_mem_cons] at hfits
  exact ⟨zone.terminii[i], List.getElem?_eq_getElem hi, hfits.1, hfits.2⟩

omit [LinearOrder P] in
/-- Behind a child that stays. -/
theorem next (hready : LoopReady h D assign zone i R₀ R₁ us tss (c :: rest)) (hRr : Rr ≤ R₁)
    (hrest : MeansAll h D rest Rr tssr) :
    LoopReady h D assign zone (i + 1) R₀ Rr us tssr rest where
  owned := hready.owned
  zone_apart := hready.zone_apart
  children_apart := hready.children_apart.mono_left hRr
  apart := hready.apart.mono_right hRr
  in_memory := hRr.trans hready.in_memory
  reads := hready.reads
  means := hrest
  length := by
    rw [hready.length, List.length_cons]
    omega
  fits := by
    obtain ⟨t, _, _, hfits⟩ := hready.terminus
    exact hfits

omit [LinearOrder P] in
/-- Behind a child that was merged. -/
theorem merged {Q S : Region} {t : Mutator} {childZone : FreeZone} {ms : List Mutator}
    {vs ws : List Content} (hready : LoopReady h D assign zone i R₀ R₁ us tss (c :: rest))
    (hQ : Q ≤ R₁) (hRr : Rr ≤ R₁) (hQr : Disjoint Q Rr) (hrest : MeansAll h D rest Rr tssr)
    (hmerged : Merged h h₁ R₀ Q zone i t childZone us vs ms S ws) :
    LoopReady h₁ D assign ⟨zone.base, zone.terminii.take i ++ ms ++ zone.terminii.drop (i + 1)⟩
      (i + ms.length) S Rr (fillAll (atHole t.slot ws) us) tssr rest where
  -- what is merged lies in the zone, the child and nodes that were not there
  owned := hmerged.changes.owned hready.zone_apart hready.owned
  zone_apart := Disjoint.mono_left hmerged.region_le
    (disjoint_sup_left.mpr ⟨disjoint_sup_left.mpr
      ⟨hready.zone_apart, hready.children_apart.mono_left hQ⟩,
      (disjoint_unused hready.owned.le_used).symm⟩)
  children_apart := hready.children_apart.mono_left hRr
  apart := Disjoint.mono_left hmerged.region_le
    (disjoint_sup_left.mpr ⟨disjoint_sup_left.mpr ⟨hready.apart.mono_right hRr, hQr⟩,
      (disjoint_unused (hRr.trans hready.in_memory)).symm⟩)
  in_memory := (hRr.trans hready.in_memory).trans (used_mono hmerged.changes)
  reads := hmerged.reads
  means := MeansAll.frame hmerged.changes hready.owned hready.zone_apart rest Rr tssr
    (hready.apart.mono_right hRr) hrest
  length := by
    have hlen := (hready.next hRr hrest).length
    show (zone.terminii.take i ++ ms ++ zone.terminii.drop (i + 1)).length = _
    rw [List.length_append, List.length_append, List.length_take, List.length_drop, hlen]
    omega
  -- the terminii behind the new ones are those of before
  fits := by
    obtain ⟨u, hu, _, hfits⟩ := hready.terminus
    obtain ⟨hi, _⟩ := List.getElem?_eq_some_iff.mp hu
    show FitAll h₁ assign ((zone.terminii.take i ++ ms ++ zone.terminii.drop (i + 1)).drop _) rest
    rw [List.drop_left' (by
      rw [List.length_append, List.length_take, Nat.min_eq_left (Nat.le_of_lt hi)])]
    intro r hr kind hkind
    obtain ⟨T, xs, hsub⟩ := hrest.sub _ _ _ r.2
      (mem_windInAll.mpr ⟨r.2, (List.of_mem_zip hr).2, mem_windIn_self r.2⟩)
    rw [hsub.baseKind_eq hmerged.changes] at hkind
    exact hfits r hr kind hkind

end LoopReady

/-- **A free zone and its children after the merges** at the terminii from `i` on. -/
structure LoopMerged (h h' : TreeHeap) (D : Region) (picks : NodeKind → Bool) (zone : FreeZone)
    (i : Nat) (R₀ R₁ : Region) (us : List Content) (tss : List (List Content))
    (cs : List (Patch P)) (zone' : FreeZone) (R₀' R₁' : Region) (us' : List Content)
    (tss' : List (List Content)) (cs' : List (Patch P)) : Prop where
  base : zone'.base = zone.base
  reads : h'.ReadsFree R₀' zone' us'
  means : MeansAll h' D cs' R₁' tss'
  apart : Disjoint R₀' R₁'
  kept : Kept h h' (R₀ ⊔ R₁) (R₀' ⊔ R₁')
  length : zone'.terminii.length = i + cs'.length
  trees : treeZones cs' = treeZones cs
  below : ∀ q ∈ windInAll cs', q ∈ windInAll cs
  content : ∀ pre : List (List Content), pre.length = i →
    fillAll (plug (slots zone') (pre ++ tss')) us' = fillAll (plug (slots zone) (pre ++ tss)) us
  settled : (∀ q ∈ windInAll cs, Settled h picks q) → (∀ q ∈ windInAll cs', Settled h' picks q)
    ∧ ∀ c ∈ cs', ∀ kind ∈ c.baseKind h', picks kind = false

omit [LinearOrder P] in
/-- **One turn of the loop**: the patches `ds` stay, and the loop goes on behind them with the
zone `zone₁`, which may have taken in what is in `Q`. -/
theorem LoopMerged.front {R₀₁ Rd Rr : Region} {us₁ : List Content}
    {dss tssr : List (List Content)} {assign : Bool}
    (hready : LoopReady h D assign zone i R₀ R₁ us tss cs) (hstep : ChangesOnly h h₁ R₀)
    (hbase : zone₁.base = zone.base)
    (hzone₁ : R₀₁ ≤ R₀ ⊔ Q ⊔ unused h) (hQ : Q ≤ R₁) (hRd : Rd ≤ R₁) (hRr : Rr ≤ R₁)
    (hQd : Disjoint Q Rd) (hrd : Disjoint Rr Rd) (hds : MeansAll h D ds Rd dss)
    (hrest : MeansAll h D rest Rr tssr)
    (htrees : treeZones cs = treeZones ds ++ treeZones rest)
    (hbelow : ∀ q ∈ windInAll ds ++ windInAll rest, q ∈ windInAll cs)
    (hcontent : ∀ pre : List (List Content), pre.length = i →
      fillAll (plug (slots zone₁) (pre ++ dss ++ tssr)) us₁
        = fillAll (plug (slots zone) (pre ++ tss)) us)
    (hsettled : (∀ q ∈ windInAll cs, Settled h picks q) → (∀ q ∈ windInAll ds, Settled h picks q)
      ∧ (∀ c ∈ ds, ∀ kind ∈ c.baseKind h, picks kind = false)
      ∧ ∀ q ∈ windInAll rest, Settled h picks q)
    (hloop : LoopMerged h₁ h' D picks zone₁ (i + ds.length) R₀₁ Rr us₁ tssr rest
      zone' R₀' R₁' us' tss' cs') :
    LoopMerged h h' D picks zone i R₀ R₁ us tss cs zone' R₀' (Rd ⊔ R₁') us' (dss ++ tss')
      (ds ++ cs') := by
  obtain ⟨hD, hR₀D, hR₁D, hapart, hR₁, _, _, _, _⟩ := hready
  have hRd_used : Rd ≤ used h := hRd.trans hR₁
  -- what the rest of the loop changes
  have hchanged : R₀₁ ⊔ Rr ≤ R₀ ⊔ R₁ ⊔ unused h :=
    sup_le (hzone₁.trans (sup_le_sup_right (sup_le_sup_left hQ R₀) _))
      (hRr.trans (le_sup_right.trans le_sup_left))
  have hsteps : ChangesOnly h h' (R₀ ⊔ R₁) :=
    (hstep.mono le_sup_left).trans hloop.kept.changes hchanged
  have hfromD : Disjoint (R₀₁ ⊔ Rr) D :=
    Disjoint.mono_left hchanged (disjoint_sup_left.mpr
      ⟨disjoint_sup_left.mpr ⟨hR₀D, hR₁D⟩, (disjoint_unused hD.le_used).symm⟩)
  have hfromds : Disjoint (R₀₁ ⊔ Rr) Rd := by
    refine disjoint_sup_left.mpr ⟨Disjoint.mono_left hzone₁ ?_, hrd⟩
    exact disjoint_sup_left.mpr ⟨disjoint_sup_left.mpr ⟨hapart.mono_right hRd, hQd⟩,
      (disjoint_unused hRd_used).symm⟩
  -- so what stays reads as it did, before and after that
  have hRd_used₁ : Rd ≤ used h₁ := hRd_used.trans (used_mono hstep)
  have hds' : MeansAll h' D ds Rd dss :=
    MeansAll.frame hloop.kept.changes (hstep.owned hR₀D hD) hfromD ds Rd dss hfromds
      (MeansAll.frame hstep hD hR₀D ds Rd dss (hapart.mono_right hRd) hds)
  have hnew : Disjoint (R₀' ⊔ R₁') Rd := hloop.kept.disjoint hRd_used₁ hfromds
  refine ⟨hloop.base.trans hbase, hloop.reads, ?_, ?_, ⟨hsteps, ?_, ?_⟩, ?_, ?_, ?_, ?_, ?_⟩
  · exact hds'.append hloop.means (hnew.mono_left le_sup_right).symm
  · exact disjoint_sup_right.mpr ⟨hnew.mono_left le_sup_left, hloop.apart⟩
  · have hle : R₀' ⊔ R₁' ≤ R₀ ⊔ R₁ ⊔ unused h :=
      hloop.kept.region_le.trans (sup_le hchanged ((unused_mono hstep).trans le_sup_right))
    exact sup_le (le_sup_left.trans hle) (sup_le (hRd.trans (le_sup_right.trans le_sup_left))
      (le_sup_right.trans hle))
  · exact sup_le (le_sup_left.trans hloop.kept.in_memory)
      (sup_le (hRd_used.trans (used_mono hsteps)) (le_sup_right.trans hloop.kept.in_memory))
  · rw [hloop.length, List.length_append, Nat.add_assoc]
  · rw [treeZones_append, hloop.trees, htrees]
  · intro q hq
    rw [windInAll_append] at hq
    rcases List.mem_append.mp hq with hq | hq
    · exact hbelow q (List.mem_append_left _ hq)
    · exact hbelow q (List.mem_append_right _ (hloop.below q hq))
  · intro pre hpre
    rw [← List.append_assoc, hloop.content (pre ++ dss), hcontent pre hpre]
    rw [List.length_append, hpre, hds.length_eq]
  · intro hall
    obtain ⟨hds_settled, hds_kinds, hrest_settled⟩ := hsettled hall
    obtain ⟨hcs', hkinds'⟩ := hloop.settled fun q hq => by
      obtain ⟨T, vs, hsub⟩ := hrest.sub _ _ _ q hq
      exact (hrest_settled q hq).later hsub hstep
    constructor
    · intro q hq
      rw [windInAll_append] at hq
      rcases List.mem_append.mp hq with hq | hq
      · obtain ⟨T, vs, hsub⟩ := hds.sub _ _ _ q hq
        exact (hds_settled q hq).later hsub hsteps
      · exact hcs' q hq
    · intro c hc kind hkind
      rcases List.mem_append.mp hc with hc | hc
      · obtain ⟨T, vs, hsub⟩ := hds.sub _ _ _ c (mem_windInAll.mpr ⟨c, hc, mem_windIn_self c⟩)
        rw [hsub.baseKind_eq hsteps] at hkind
        exact hds_kinds c hc kind hkind
      · exact hkinds' c hc kind hkind

omit [LinearOrder P] in
/-- A patch that is not merged. -/
theorem LoopMerged.stay {c : Patch P} {Rc Rr : Region} {tc : List Content}
    {tssr : List (List Content)} {assign : Bool}
    (hready : LoopReady h D assign zone i R₀ R₁ us (tc :: tssr) (c :: rest)) (hRc : Rc ≤ R₁)
    (hRr : Rr ≤ R₁)
    (hcr : Disjoint Rc Rr) (hc : Means h D c Rc tc) (hrest : MeansAll h D rest Rr tssr)
    (hkind : ∀ kind ∈ c.baseKind h, picks kind = false)
    (hloop : LoopMerged h h' D picks zone (i + 1) R₀ Rr us tssr rest zone' R₀' R₁' us' tss' cs') :
    LoopMerged h h' D picks zone i R₀ R₁ us (tc :: tssr) (c :: rest) zone' R₀' (Rc ⊔ R₁') us'
      (tc :: tss') (c :: cs') := by
  have hds : MeansAll h D [c] Rc [tc] :=
    ⟨Rc, ⊥, tc, [], le_refl Rc, bot_le, disjoint_bot_right, hc, rfl, rfl⟩
  have hwalk : windInAll (c :: rest) = windInAll [c] ++ windInAll rest := windInAll_append [c] rest
  refine LoopMerged.front (Q := ⊥) hready (ChangesOnly.refl h R₀) rfl
    (le_sup_left.trans le_sup_left) bot_le hRc hRr disjoint_bot_left hcr.symm hds hrest
    ?_ ?_ ?_ ?_ hloop
  · exact treeZones_append [c] rest
  · rw [hwalk]
    exact fun q hq => hq
  · intro pre _
    rw [List.append_assoc]
    rfl
  · intro hall
    rw [hwalk, List.forall_mem_append] at hall
    refine ⟨hall.1, ?_, hall.2⟩
    intro d hd
    obtain rfl := List.mem_singleton.mp hd
    exact hkind

omit [LinearOrder P] in
/-- **A patch that is merged.** -/
theorem LoopMerged.merge {ptr : Nat} {childZone : FreeZone} {originators : Originators P}
    {children : List (Patch P)} {t : Mutator} {ms : List Mutator} {Q Rd Rr S : Region}
    {vs ws : List Content} {dss tssr : List (List Content)} {assign : Bool}
    (hready : LoopReady h D assign zone i R₀ R₁ us
      (fillAll (plug (slots childZone) dss) vs :: tssr)
      (.free ptr childZone originators children :: rest)) (hQ : Q ≤ R₁) (hRd : Rd ≤ R₁)
    (hRr : Rr ≤ R₁) (hQd : Disjoint Q Rd) (hdr : Disjoint Rd Rr) (ht : zone.terminii[i]? = some t)
    (hlen : childZone.terminii.length = dss.length) (hds : MeansAll h D children Rd dss)
    (hrest : MeansAll h D rest Rr tssr)
    (hmerged : Merged h h₁ R₀ Q zone i t childZone us vs ms S ws)
    (hloop : LoopMerged h₁ h' D picks
      ⟨zone.base, zone.terminii.take i ++ ms ++ zone.terminii.drop (i + 1)⟩ (i + children.length)
      S Rr (fillAll (atHole t.slot ws) us) tssr rest zone' R₀' R₁' us' tss' cs') :
    LoopMerged h h' D picks zone i R₀ R₁ us
      (fillAll (plug (slots childZone) dss) vs :: tssr)
      (.free ptr childZone originators children :: rest) zone' R₀' (Rd ⊔ R₁') us' (dss ++ tss')
      (children ++ cs') := by
  -- the new zone is the old one with the child's terminii for the one terminus
  obtain ⟨hi, _⟩ := List.getElem?_eq_some_iff.mp ht
  have hread := hready.reads
  have hwalk := windInAll_free ptr childZone originators children rest
  refine LoopMerged.front (Q := Q) hready hmerged.changes ?_ hmerged.region_le
    hQ hRd hRr hQd hdr.symm hds hrest ?_ ?_ ?_ ?_ hloop
  · rfl
  · rw [← List.singleton_append, treeZones_append, treeZones_free]
  · rw [hwalk]
    exact fun q hq => List.mem_cons_of_mem _ hq
  · -- the child's trees go into the hole at `t`, whatever is put before and behind it
    intro pre hpre
    have hsplit : slots zone = (zone.terminii.take i).map Mutator.slot
        ++ t.slot :: (zone.terminii.drop (i + 1)).map Mutator.slot := by
      unfold slots
      conv_lhs => rw [eq_take_append_cons ht]
      rw [List.map_append, List.map_cons]
    have hsplit₁ : slots ⟨zone.base, zone.terminii.take i ++ ms ++ zone.terminii.drop (i + 1)⟩
        = (zone.terminii.take i).map Mutator.slot ++ ms.map Mutator.slot
          ++ (zone.terminii.drop (i + 1)).map Mutator.slot := by
      unfold slots
      rw [List.map_append, List.map_append]
    have hnodup := hmerged.reads.nodup
    rw [show List.map Mutator.slot _ = _ from hsplit₁, List.nodup_append', List.nodup_append']
      at hnodup
    rw [hsplit, hsplit₁, ← hmerged.filled dss]
    refine fillAll_plug_splice ?_ ?_ ?_ hmerged.holes ?_ ?_ ?_
    · rw [List.length_map, List.length_take, hpre, Nat.min_eq_left (Nat.le_of_lt hi)]
    · rw [List.length_map, hmerged.length, hlen]
    · intro y hy
      rw [← hsplit]
      exact hread.holes.mem_iff.mp hy
    · rw [← hsplit]
      exact hread.nodup
    · intro y hy hpre'
      exact hnodup.1.2.2 hpre' hy
    · intro y hy hms
      exact hnodup.2.2 (List.mem_append_right _ hms) hy
  · intro hall
    rw [hwalk, List.forall_mem_cons, List.forall_mem_append] at hall
    exact ⟨hall.2.1, hall.1, hall.2.2⟩

/-! ## §4. The loop. -/

/-- **The loop ends**, with what is left of the children, and what it has recorded. -/
def LoopEnds (policy : FreeZone → FreeZone → Update Bool) (picks : NodeKind → Bool)
    (assign : Bool) (h : TreeHeap) (D : Region) (zone : FreeZone) (i : Nat) (R₀ R₁ : Region)
    (us : List Content) (tss : List (List Content)) (cs : List (Patch P)) : Prop :=
  ∃ zone' cs' h' R₀' R₁' us' tss',
    (∀ a, ∃ a', mergeLoop policy assign zone i cs a h = some (((zone', cs'), a'), h')
      ∧ Recorded assign h' (windInAll cs) (windInAll cs') a a')
    ∧ LoopMerged h h' D picks zone i R₀ R₁ us tss cs zone' R₀' R₁' us' tss' cs'

variable {policy : FreeZone → FreeZone → Update Bool} {assign : Bool}

theorem LoopEnds.nil (hready : LoopReady h D assign zone i R₀ R₁ us tss ([] : List (Patch P))) :
    LoopEnds policy picks assign h D zone i R₀ R₁ us tss ([] : List (Patch P)) := by
  refine ⟨zone, [], h, R₀, R₁, us, tss, ?_, rfl, hready.reads, hready.means, hready.apart,
    Kept.refl (sup_le hready.reads.owned.le_used hready.in_memory), hready.length, rfl,
    fun _ hq => hq, fun _ _ => rfl, ?_⟩
  · intro a
    refine ⟨a, ?_, Recorded.refl assign h _ a⟩
    rw [mergeLoop]
    exact (runs_bind (runs_lift (run_assert hready.length.symm h))).trans rfl
  · intro hall
    exact ⟨hall, fun c hc => absurd hc List.not_mem_nil⟩

/-- A child that stays is at its terminus. -/
theorem LoopEnds.stay {c : Patch P} {Rc Rr : Region} {tc : List Content}
    {tssr : List (List Content)}
    (hready : LoopReady h D assign zone i R₀ R₁ us (tc :: tssr) (c :: rest)) (hRc : Rc ≤ R₁)
    (hRr : Rr ≤ R₁) (hcr : Disjoint Rc Rr) (hc : Means h D c Rc tc)
    (hrest : MeansAll h D rest Rr tssr) (hkind : ∀ kind ∈ c.baseKind h, picks kind = false)
    (hrun : ∀ rest' zone' a a' h',
      mergeLoop policy assign zone (i + 1) rest a h = some (((zone', rest'), a'), h') →
      mergeLoop policy assign zone i (c :: rest) a h = some (((zone', c :: rest'), a'), h'))
    (hends : LoopEnds policy picks assign h D zone (i + 1) R₀ Rr us tssr rest) :
    LoopEnds policy picks assign h D zone i R₀ R₁ us (tc :: tssr) (c :: rest) := by
  obtain ⟨zone', cs', h', R₀', R₁', us', tss', hloop, hmerged⟩ := hends
  refine ⟨zone', c :: cs', h', R₀', Rc ⊔ R₁', us', tc :: tss', ?_,
    hmerged.stay hready hRc hRr hcr hc hrest hkind⟩
  intro a
  obtain ⟨a', hloop, hrecorded⟩ := hloop a
  exact ⟨a', hrun _ _ _ _ _ hloop,
    (Recorded.refl assign h c.windIn a).append hmerged.kept.changes hrecorded⟩

/-- **A child that is merged** leaves its place to its children. -/
theorem LoopEnds.merge {ptr b : Nat} {childZone : FreeZone} {originators : Originators P}
    {children : List (Patch P)} {Q Rd Rr : Region} {vs : List Content}
    {dss tssr : List (List Content)}
    (hready : LoopReady h D assign zone i R₀ R₁ us
      (fillAll (plug (slots childZone) dss) vs :: tssr)
      (.free ptr childZone originators children :: rest)) (hQ : Q ≤ R₁) (hRd : Rd ≤ R₁)
    (hRr : Rr ≤ R₁) (hQd : Disjoint Q Rd) (hQr : Disjoint Q Rr) (hdr : Disjoint Rd Rr)
    (hchild : h.ReadsFree Q childZone vs) (hlen : childZone.terminii.length = dss.length)
    (hds : MeansAll h D children Rd dss) (hrest : MeansAll h D rest Rr tssr)
    (hbase : childZone.base = some b) (hpolicy : policy zone childZone h = some (true, h))
    (hends : ∀ h₁ zone₁ j S us₁, LoopReady h₁ D assign zone₁ j S Rr us₁ tssr rest →
      LoopEnds policy picks assign h₁ D zone₁ j S Rr us₁ tssr rest) :
    LoopEnds policy picks assign h D zone i R₀ R₁ us
      (fillAll (plug (slots childZone) dss) vs :: tssr)
      (.free ptr childZone originators children :: rest) := by
  obtain ⟨t, ht, hfit, _⟩ := hready.terminus
  have hbaseKind : Patch.baseKind h (.free ptr childZone originators children)
      = some (h.nodeAt b).kind := by
    show childZone.base.map _ = _
    rw [hbase]
    rfl
  have hfit := hfit _ hbaseKind
  have hread := hready.reads
  -- the merge itself, and then the rest of the loop
  obtain ⟨ms, xlink, S, ws, h₁, hmerge, hmerged, hxlink⟩ :=
    merge_reads hread hchild (hready.apart.mono_right hQ) ht hbase hfit.1
  have hms : ms.length = children.length := by
    rw [hmerged.length, hlen, hds.length_eq]
  obtain ⟨zone', cs', h', R₀', R₁', us', tss', hloop, hloopMerged⟩ :=
    hends _ _ _ _ _ (hready.merged hQ hRr hQr hrest hmerged)
  have hsteps := hloopMerged.kept.changes
  -- the link that the child's originators are assigned to
  have hleads : assign = true → ∃ x, xlink = some x ∧ Leads h₁ x b := by
    intro hassign
    obtain ⟨rfl, hchildOf⟩ := hxlink (hfit.2 hassign).1
    have hslot := (hread.slot_mem (List.mem_of_getElem? ht)).2
    exact ⟨t.slot, rfl, Nat.lt_of_lt_of_le (hread.owned.link_lt _ hslot)
      hmerged.changes.link_le, hchildOf⟩
  have hscaffold : assign = true → originators ≠ ∅ → (h₁.nodeAt b).kind ≠ .scaffold := by
    intro hassign hne
    obtain ⟨b', hb', hbase'⟩ := hchild.base
    obtain rfl : b = b' := Option.some.inj (hbase.symm.trans hb')
    rw [hmerged.changes.kind b hbase'.has.1]
    exact (hfit.2 hassign).2 hne
  refine ⟨zone', children ++ cs', h', R₀', Rd ⊔ R₁', us', dss ++ tss', ?_, ?_⟩
  · -- the assignments: first the child's, then those of the rest
    intro a
    obtain ⟨a', hloop, hrecorded⟩ := hloop (joined assign originators xlink a)
    have hjoined : Recorded assign h₁ [.free ptr childZone originators children] [] a
        (joined assign originators xlink a) := joined_recorded hbase hleads
    refine ⟨a', mergeLoop_merge ht hpolicy hbase hfit.1 hmerge ?_ hloop, ?_⟩
    · intro hassign
      obtain ⟨x, hx, hlead⟩ := hleads hassign
      exact ⟨x, b, hx, hlead.2, hscaffold hassign⟩
    · rw [windInAll_free, windInAll_append]
      exact hjoined.append hsteps
        ((Recorded.refl assign h₁ (windInAll children) _).append hsteps hrecorded)
  · rw [hms] at hloopMerged
    exact hloopMerged.merge hready hQ hRd hRr hQd hdr ht hlen hds hrest hmerged

/-- **The loop over the children** ends. -/
theorem mergeLoop_means (hpolicy : Picks policy picks) : ∀ (cs : List (Patch P)) (h : TreeHeap)
    (zone : FreeZone) (i : Nat) (R₀ R₁ : Region) (us : List Content) (tss : List (List Content)),
    LoopReady h D assign zone i R₀ R₁ us tss cs →
    LoopEnds policy picks assign h D zone i R₀ R₁ us tss cs
  | [], h, zone, i, R₀, R₁, us, tss, hready => LoopEnds.nil hready
  -- by recursion on the children; the zone and the memory change, `LoopReady` carries them
  | c :: cs, h, zone, i, R₀, R₁, us, tss, hready => by
      obtain ⟨Rc, Rr, tc, tssr, hRc, hRr, hcr, hc, hrest, rfl⟩ := hready.means
      obtain ⟨t, ht, _⟩ := hready.terminus
      have hends := mergeLoop_means hpolicy cs h zone (i + 1) R₀ Rr us tssr (hready.next hRr hrest)
      -- a tree zone stays; a free one goes by the policy and the kind of its base
      cases c with
      | tree ptr childZone intent originators children =>
          refine LoopEnds.stay hready hRc hRr hcr hc hrest ?_ ?_ hends
          · intro kind hkind
            cases hkind
          · intro rest' zone' a a' h' hloop
            obtain ⟨hi, _⟩ := List.getElem?_eq_some_iff.mp ht
            exact mergeLoop_tree hi hloop
      | free ptr childZone originators children =>
          have hmeans := hc
          obtain ⟨Q, Rd, vs, dss, hQ, hRd, hQd, hchild, hlen, hds, rfl⟩ := hc
          obtain ⟨b, hb, _⟩ := hchild.base
          have hrun := hpolicy h zone childZone b hb
          cases hpick : picks (h.nodeAt b).kind with
          | false =>
              rw [hpick] at hrun
              refine LoopEnds.stay hready hRc hRr hcr hmeans hrest ?_ ?_ hends
              · intro kind hkind
                rw [show Patch.baseKind h (.free ptr childZone originators children)
                  = childZone.base.map (fun b => (h.nodeAt b).kind) from rfl, hb] at hkind
                obtain rfl := Option.some.inj hkind
                exact hpick
              · intro rest' zone' a a' h' hloop
                exact mergeLoop_keep ht hrun hloop
          | true =>
              rw [hpick] at hrun
              exact LoopEnds.merge hready (hQ.trans hRc) (hRd.trans hRc) hRr hQd (hcr.mono_left hQ)
                (hcr.mono_left hRd) hchild hlen hds hrest hb hrun
                fun h₁ zone₁ j S us₁ hready₁ =>
                  mergeLoop_means hpolicy cs h₁ zone₁ j S Rr us₁ tssr hready₁

end Patch

end Inferno.UP
