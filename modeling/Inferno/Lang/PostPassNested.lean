/-
  Inferno.Lang.PostPassNested
  ───────────────────────────
  A tree in which no node is shared: the pass aborts, or leaves a code unit, at a link that
  accepts none and has anything but a code unit that is not nested.

    • `Below`         — the links at and below a link,
    • `Unshared`      — every link is below one other only,
    • `WayFrom`       — how the pass goes on from a link,
    • `Steps`         — what a run does to the links of a node, one after another,
    • `Local`         — what a run does below a link,
    • `cleans_iff`    — when the pass cleans a tree.
-/
import Inferno.Lang.PostPassExact
import Mathlib.Logic.Relation

namespace Inferno.Lang.PostPass

open Inferno.Common Inferno.Lib Relation
open Inferno.DB (Item)

variable {L N : Type} {node : N → PassNode L} {root : L} {children₀ : Children L N}

/-! ## §1. Trees without sharing. -/

/-- `l'` is a link of the child of `l`. -/
def Below (node : N → PassNode L) (children : Children L N) (l l' : L) : Prop :=
  ∃ n, children l = some n ∧ l' ∈ (node n).links

/-- **No node is shared**: each link is below one other only. -/
def Unshared (node : N → PassNode L) (children : Children L N) : Prop :=
  ∀ p p' l, Below node children p l → Below node children p' l → p = p'

/-- A link is not below a link of its child. -/
theorem not_below_child (hparsed : Parsed node root children₀) {p l : L}
    (h : Below node children₀ p l) : ¬ ReflTransGen (Below node children₀) l p := by
  obtain ⟨height, hheight⟩ := exists_height hparsed.acyclic
  -- the height of what the link holds, and 0 for NULL
  let linkHeight : L → Nat := fun l => ((children₀ l).map fun n => height n + 1).getD 0
  have hlt : ∀ a b, Below node children₀ a b → linkHeight b < linkHeight a := by
    rintro a b ⟨n, hn, hb⟩
    have ha : linkHeight a = height n + 1 := by
      show ((children₀ a).map _).getD 0 = _
      rw [hn]
      rfl
    cases hchild : children₀ b with
    | none =>
        have hb0 : linkHeight b = 0 := by
          show ((children₀ b).map _).getD 0 = _
          rw [hchild]
          rfl
        omega
    | some n' =>
        have hb1 : linkHeight b = height n' + 1 := by
          show ((children₀ b).map _).getD 0 = _
          rw [hchild]
          rfl
        have hlow := hheight n n' (List.mem_filterMap.mpr ⟨b, hb, hchild⟩)
        omega
  intro hback
  have hle : ∀ b, ReflTransGen (Below node children₀) l b → linkHeight b ≤ linkHeight l := by
    intro b hb
    induction hb with
    | refl => exact le_refl _
    | tail _ hstep ih => exact (hlt _ _ hstep).le.trans ih
  have hup := hle p hback
  have hdown := hlt p l h
  omega

/-- Nothing is below two links of a node. -/
theorem Unshared.disjoint (hparsed : Parsed node root children₀)
    (hunshared : Unshared node children₀) {p l l' a : L} (hl : Below node children₀ p l)
    (hl' : Below node children₀ p l') (hne : l ≠ l')
    (ha : ReflTransGen (Below node children₀) l a) :
    ¬ ReflTransGen (Below node children₀) l' a := by
  -- of two links above the same one is above the other
  have hone : ∀ {l l' : L}, Below node children₀ p l → Below node children₀ p l' → l ≠ l' →
      ¬ ReflTransGen (Below node children₀) l l' := by
    intro l l' hl hl' hne h
    rcases ReflTransGen.cases_tail h with heq | ⟨q, hq, hstep⟩
    · exact hne heq.symm
    · obtain rfl := hunshared q p l' hstep hl'
      exact not_below_child hparsed hl hq
  intro ha'
  have hright : Relator.RightUnique (Function.swap (Below node children₀)) := by
    intro a b c hb hc
    exact hunshared b c a hb hc
  rcases ReflTransGen.total_of_right_unique hright (reflTransGen_swap.mpr ha)
    (reflTransGen_swap.mpr ha') with h | h
  · exact hone hl' hl hne.symm (reflTransGen_swap.mp h)
  · exact hone hl hl' hne (reflTransGen_swap.mp h)

/-! ## §2. Reaching from a link. -/

/-- A link reached from another, with its flag. -/
inductive ReachesFrom (node : N → PassNode L) (children : Children L N) :
    L → Bool → L → Bool → Prop where
  | here (l : L) (canAccept : Bool) : ReachesFrom node children l canAccept l canAccept
  | step {l l' a : L} {canAccept flag : Bool} {n : N} (hn : children l = some n)
      (hl : l' ∈ (node n).links)
      (h : ReachesFrom node children l' ((node n).canAcceptBelow canAccept) a flag) :
      ReachesFrom node children l canAccept a flag

theorem ReachesFrom.child {children : Children L N} {l a a' : L} {canAccept flag : Bool} {n : N}
    (h : ReachesFrom node children l canAccept a flag) (hn : children a = some n)
    (ha : a' ∈ (node n).links) :
    ReachesFrom node children l canAccept a' ((node n).canAcceptBelow flag) := by
  induction h with
  | here => exact .step hn ha (.here _ _)
  | step hn' hl _ ih => exact .step hn' hl (ih hn)

theorem ReachesFrom.reaches {children : Children L N} {l a : L} {canAccept flag : Bool}
    (h : ReachesFrom node children l canAccept a flag)
    (hl : Reaches node root children l canAccept) : Reaches node root children a flag := by
  induction h with
  | here => exact hl
  | step hn hl' _ ih => exact ih (hl.child hn hl')

theorem reachesFrom_root {children : Children L N} {l : L} {canAccept : Bool} :
    ReachesFrom node children root true l canAccept
      ↔ Reaches node root children l canAccept := by
  constructor
  · intro h
    exact h.reaches .root
  · intro h
    induction h with
    | root => exact .here _ _
    | child _ hn hl ih => exact ih.child hn hl

/-- Two trees that are alike below a link. -/
theorem ReachesFrom.congr {children children' : Children L N} {l a : L} {canAccept flag : Bool}
    (S : L → Prop) (hclosed : ∀ a n, S a → children a = some n → ∀ a' ∈ (node n).links, S a')
    (heq : ∀ a, S a → children' a = children a) (hl : S l)
    (h : ReachesFrom node children l canAccept a flag) :
    ReachesFrom node children' l canAccept a flag ∧ S a := by
  induction h with
  | here => exact ⟨.here _ _, hl⟩
  | @step l l' a canAccept flag n hn hl' _ ih =>
      obtain ⟨h', ha⟩ := ih (hclosed l n hl hn l' hl')
      exact ⟨.step ((heq l hl).trans hn) hl' h', ha⟩

/-- **The pass goes on** from a link, with its flag, and comes to another. -/
inductive WayFrom (node : N → PassNode L) (children : Children L N) :
    L → Bool → L → Bool → Prop where
  | here (l : L) (canAccept : Bool) : WayFrom node children l canAccept l canAccept
  | child {l l' a : L} {flag : Bool} {n : N} (hn : children l = some n)
      (hl : l' ∈ (node n).links)
      (h : WayFrom node children l' ((node n).canAcceptBelow true) a flag) :
      WayFrom node children l true a flag
  | member {l m l' a : L} {flag isAgent : Bool} {n x : N} (hn : children l = some n)
      (hunit : node n = .codeUnit isAgent [m]) (hx : children m = some x)
      (hl : l' ∈ (node x).links) (h : WayFrom node children l' false a flag) :
      WayFrom node children l false a flag

theorem WayFrom.trans {children : Children L N} {l a b : L} {canAccept flag flag' : Bool}
    (h : WayFrom node children l canAccept a flag)
    (h' : WayFrom node children a flag b flag') :
    WayFrom node children l canAccept b flag' := by
  induction h with
  | here => exact h'
  | child hn hl _ ih => exact .child hn hl (ih h')
  | member hn hunit hx hl _ ih => exact .member hn hunit hx hl (ih h')

/-- The pass comes from the root to the links that ways lead to. -/
theorem Way.wayFrom {l : L} {ls : List L} {canAccept : Bool}
    (h : Way node root children₀ (l :: ls) canAccept) :
    WayFrom node children₀ root true l canAccept := by
  generalize hp : l :: ls = p at h
  induction h generalizing l ls with
  | root =>
      cases hp
      exact .here _ _
  | child _ hn hl ih =>
      cases hp
      exact (ih rfl).trans (.child hn hl (.here _ _))
  | member _ hn hunit hx hl ih =>
      cases hp
      exact (ih rfl).trans (.member hn hunit hx hl (.here _ _))

/-! ## §3. The links of a node, one after another. -/

/-- A run over links: those that are not NULL are processed. -/
inductive Steps (process : L → Bool → Children L N → Option (Children L N)) (canAccept : Bool) :
    List L → Children L N → Children L N → Prop where
  | nil (children : Children L N) : Steps process canAccept [] children children
  | visit {l : L} {ls : List L} {children children₁ children₂ : Children L N}
      (hrun : process l canAccept children = some children₁)
      (h : Steps process canAccept ls children₁ children₂) :
      Steps process canAccept (l :: ls) children children₂
  | skip {l : L} {ls : List L} {children children₂ : Children L N} (hnull : children l = none)
      (h : Steps process canAccept ls children children₂) :
      Steps process canAccept (l :: ls) children children₂

section

variable {process : L → Bool → Children L N → Option (Children L N)} {canAccept : Bool}

theorem Steps.append {ls ls' : List L} {children children₁ children₂ : Children L N}
    (h : Steps process canAccept ls children children₁)
    (h' : Steps process canAccept ls' children₁ children₂) :
    Steps process canAccept (ls ++ ls') children children₂ := by
  induction h with
  | nil => exact h'
  | visit hrun _ ih => exact .visit hrun (ih h')
  | skip hnull _ ih => exact .skip hnull (ih h')

theorem steps_of_processContainer {ls : List L} {children children' : Children L N}
    (h : processContainer process canAccept ls children = some children') :
    Steps process canAccept ls children children' := by
  induction ls generalizing children with
  | nil =>
      cases h
      exact .nil _
  | cons l ls ih =>
      obtain ⟨children₁, hrun, hrest⟩ := foldlM_cons_eq_some.mp h
      exact .visit (ASSERT_bind_eq_some.mp hrun).2 (ih hrest)

theorem steps_of_processItem {item : Item L} {children children' : Children L N}
    (h : processItem process canAccept children item = some children') :
    Steps process canAccept item.links children children' := by
  cases item with
  | sequence ls => exact steps_of_processContainer h
  | collection ls => exact steps_of_processContainer h
  | singular l =>
      have h : processSingularItem process canAccept l children = some children' := h
      unfold processSingularItem at h
      split at h
      next hsome => exact .visit h (.nil _)
      next hnull =>
        cases h
        exact .skip (Option.not_isSome_iff_eq_none.mp hnull) (.nil _)

/-- **The loop over the items** is a run over the links of the node. -/
theorem steps_of_items {items : List (Item L)} {children children' : Children L N}
    (h : items.foldlM (processItem process canAccept) children = some children') :
    Steps process canAccept (items.flatMap Item.links) children children' := by
  induction items generalizing children with
  | nil =>
      cases h
      exact .nil _
  | cons item items ih =>
      obtain ⟨children₁, hitem, hrest⟩ := foldlM_cons_eq_some.mp h
      rw [List.flatMap_cons]
      exact (steps_of_processItem hitem).append (ih hrest)

end

/-! ## §4. What a run does below a link. -/

/-- The link has a child, but no code unit that is not nested. -/
def WrongAt (node : N → PassNode L) (children₀ : Children L N) (l : L) : Prop :=
  (children₀ l).isSome ∧ ¬ SingleUnitAt node children₀ l

/-- There is a code unit, reached from a link, where none is accepted. -/
def LeavesUnit (node : N → PassNode L) (children : Children L N) (l : L) (canAccept : Bool) :
    Prop :=
  ∃ a n, ReachesFrom node children l canAccept a false ∧ children a = some n
    ∧ (node n).isCodeUnit = true

/-- **A run below a link** that returns changes nothing elsewhere, gives each link a node from
further down, and leaves a code unit where none is accepted if it came to a wrong link. -/
structure Local (node : N → PassNode L) (children₀ children children' : Children L N) (l : L)
    (canAccept : Bool) : Prop where
  frame : ∀ a, ¬ ReflTransGen (Below node children₀) l a → children' a = children a
  lower : ∀ a n, ReflTransGen (Below node children₀) l a → children' a = some n →
    ∃ a', ReflTransGen (Below node children₀) a a' ∧ children₀ a' = some n
  wrong : ∀ a, WayFrom node children₀ l canAccept a false → WrongAt node children₀ a →
    LeavesUnit node children' l canAccept

/-- The tree is as it was below a link. -/
def Agrees (node : N → PassNode L) (children₀ children : Children L N) (l : L) : Prop :=
  ∀ a, ReflTransGen (Below node children₀) l a → children a = children₀ a

/-- **A run over links of one node.** -/
theorem Steps.local (hparsed : Parsed node root children₀) (hunshared : Unshared node children₀)
    {process : L → Bool → Children L N → Option (Children L N)} {canAccept : Bool} {p : L}
    {ls : List L} {children children' : Children L N}
    (h : Steps process canAccept ls children children') (hnodup : ls.Nodup)
    (hp : ∀ l ∈ ls, Below node children₀ p l)
    (hprocess : ∀ l ∈ ls, ∀ children children', Agrees node children₀ children l →
      process l canAccept children = some children' →
      Local node children₀ children children' l canAccept)
    (hagrees : ∀ l ∈ ls, Agrees node children₀ children l) :
    (∀ a, (∀ l ∈ ls, ¬ ReflTransGen (Below node children₀) l a) → children' a = children a)
      ∧ ∀ l ∈ ls, (∀ a n, ReflTransGen (Below node children₀) l a → children' a = some n →
          ∃ a', ReflTransGen (Below node children₀) a a' ∧ children₀ a' = some n)
        ∧ ∀ a, WayFrom node children₀ l canAccept a false → WrongAt node children₀ a →
          LeavesUnit node children' l canAccept := by
  induction h with
  | nil children =>
      refine ⟨fun _ _ => rfl, ?_⟩
      intro l hl
      cases hl
  | @visit l ls children children₁ children₂ hrun _ ih =>
      obtain ⟨hnew, hnodup⟩ := List.nodup_cons.mp hnodup
      rw [List.forall_mem_cons] at hp hprocess hagrees
      have hlocal := hprocess.1 children children₁ hagrees.1 hrun
      -- without sharing, what is below the first link is below no other
      have hapart : ∀ l' ∈ ls, ∀ a, ReflTransGen (Below node children₀) l a →
          ¬ ReflTransGen (Below node children₀) l' a := by
        intro l' hl' a ha
        refine hunshared.disjoint hparsed hp.1 (hp.2 l' hl') ?_ ha
        rintro rfl
        exact hnew hl'
      -- so the other links see what they saw before
      have hagrees₁ : ∀ l' ∈ ls, Agrees node children₀ children₁ l' := by
        intro l' hl' a ha
        exact (hlocal.frame a fun h => hapart l' hl' a h ha).trans (hagrees.2 l' hl' a ha)
      obtain ⟨hframe, hrest⟩ := ih hnodup hp.2 hprocess.2 hagrees₁
      -- what is below the first link stays as it left it
      have hkeep : ∀ a, ReflTransGen (Below node children₀) l a → children₂ a = children₁ a :=
        fun a ha => hframe a fun l' hl' => hapart l' hl' a ha
      refine ⟨?_, ?_⟩
      · intro a ha
        -- a link below none of them is moved by none
        rw [List.forall_mem_cons] at ha
        exact (hframe a ha.2).trans (hlocal.frame a ha.1)
      · rw [List.forall_mem_cons]
        refine ⟨⟨?_, ?_⟩, hrest⟩
        · intro a n ha hn
          exact hlocal.lower a n ha ((hkeep a ha).symm.trans hn)
        · intro a ha hwrong
          obtain ⟨b, n, hb, hn, hunit⟩ := hlocal.wrong a ha hwrong
          -- the way found below the first link is the same way afterwards
          obtain ⟨hb', hbelow⟩ := hb.congr (ReflTransGen (Below node children₀) l) (by
            intro a n ha hn a' ha'
            obtain ⟨a₂, ha₂, hn₂⟩ := hlocal.lower a n ha hn
            exact (ha.trans ha₂).tail ⟨n, hn₂, ha'⟩) hkeep .refl
          exact ⟨b, n, hb', (hkeep b hbelow).trans hn, hunit⟩
  | @skip l ls children children₂ hnull _ ih =>
      obtain ⟨hnew, hnodup⟩ := List.nodup_cons.mp hnodup
      rw [List.forall_mem_cons] at hp hprocess hagrees
      -- a NULL link has nothing below it
      have hnull₀ : children₀ l = none := (hagrees.1 l .refl).symm.trans hnull
      have honly : ∀ a, ReflTransGen (Below node children₀) l a → a = l := by
        intro a ha
        rcases ReflTransGen.cases_head ha with heq | ⟨b, ⟨n, hn, _⟩, _⟩
        · exact heq.symm
        · rw [hnull₀] at hn
          cases hn
      obtain ⟨hframe, hrest⟩ := ih hnodup hp.2 hprocess.2 hagrees.2
      refine ⟨fun a ha => hframe a (List.forall_mem_cons.mp ha).2, ?_⟩
      rw [List.forall_mem_cons]
      refine ⟨⟨?_, ?_⟩, hrest⟩
      · intro a n ha hn
        obtain rfl := honly a ha
        have hkeep : children₂ a = children a := by
          refine hframe a fun l' hl' => ?_
          refine hunshared.disjoint hparsed hp.1 (hp.2 l' hl') ?_ .refl
          rintro rfl
          exact hnew hl'
        rw [hkeep, hnull] at hn
        cases hn
      · -- and no way leads down from it
        intro a ha hwrong
        cases ha with
        | here =>
            have hsome := hwrong.1
            rw [hnull₀] at hsome
            cases hsome
        | child hn _ _ =>
            rw [hnull₀] at hn
            cases hn
        | member hn _ _ _ _ =>
            rw [hnull₀] at hn
            cases hn

variable [DecidableEq L]

/-- **What the exchange did**: nothing, at a link that accepts code units; and else it put the
only member of a code unit in its place. -/
theorem exchangeUnless_cases {canAccept : Bool} {l : L} {children children' : Children L N}
    (h : exchangeUnless node canAccept l children = some children')
    (hsome : (children' l).isSome) :
    (canAccept = true ∧ children' = children)
      ∨ (canAccept = false ∧ ∃ n isAgent m, children l = some n ∧ node n = .codeUnit isAgent [m]
        ∧ children' = Function.update children l (children m)) := by
  unfold exchangeUnless at h
  split at h
  next htrue => exact .inl ⟨htrue, (Option.some.inj h).symm⟩
  next hfalse =>
    refine .inr ⟨Bool.eq_false_iff.mpr hfalse, ?_⟩
    unfold exchange at h
    -- the cast takes any child that is there; `members` asserts that it is a code unit
    cases hn : children l with
    | none =>
        rw [hn] at h
        cases h
        rw [hn] at hsome
        cases hsome
    | some n =>
        rw [hn] at h
        obtain ⟨members, hmembers, h⟩ := Option.bind_eq_some_iff.mp h
        obtain ⟨hone, h⟩ := ASSERT_bind_eq_some.mp (ASSERT_bind_eq_some.mp h).2
        obtain ⟨m, rfl⟩ := List.length_eq_one_iff.mp hone
        cases h
        cases hnode : node n with
        | codeUnit isAgent members =>
            rw [hnode] at hmembers
            cases hmembers
            exact ⟨n, isAgent, m, rfl, hnode, rfl⟩
        | agent _ _ _ =>
            rw [hnode] at hmembers
            cases hmembers
        | plain _ =>
            rw [hnode] at hmembers
            cases hmembers

omit [DecidableEq L] in
/-- **The links of the child**, where the child has been left. -/
theorem Steps.local_kept (hparsed : Parsed node root children₀)
    (hunshared : Unshared node children₀)
    {process : L → Bool → Children L N → Option (Children L N)} {l : L} {x : N}
    {children children' : Children L N}
    (h : Steps process ((node x).canAcceptBelow true) (node x).links children children')
    (hprocess : ∀ l' ∈ (node x).links, ∀ children children', Agrees node children₀ children l' →
      process l' ((node x).canAcceptBelow true) children = some children' →
      Local node children₀ children children' l' ((node x).canAcceptBelow true))
    (hagrees : Agrees node children₀ children l) (hx : children l = some x) :
    Local node children₀ children children' l true := by
  have hx₀ : children₀ l = some x := (hagrees l .refl).symm.trans hx
  have hbelow : ∀ l' ∈ (node x).links, Below node children₀ l l' :=
    fun l' hl' => ⟨x, hx₀, hl'⟩
  obtain ⟨hframe, hlinks⟩ := h.local hparsed hunshared (hparsed.nodup x) hbelow
    hprocess fun l' hl' a ha => hagrees a (.head (hbelow l' hl') ha)
  -- the link itself is not below its own child
  have hown : children' l = some x :=
    (hframe l fun l' hl' => not_below_child hparsed (hbelow l' hl')).trans hx
  refine ⟨?_, ?_, ?_⟩
  · intro a ha
    exact hframe a fun l' hl' h => ha (.head (hbelow l' hl') h)
  · intro a y ha hy
    rcases ReflTransGen.cases_head ha with rfl | ⟨l', ⟨x', hx', hl'⟩, hl'a⟩
    · exact ⟨l, .refl, hx₀.trans (hown.symm.trans hy)⟩
    · obtain rfl := Option.some.inj (hx₀.symm.trans hx')
      exact (hlinks l' hl').1 a y hl'a hy
  · intro a ha hwrong
    cases ha with
    | @child _ l' _ _ x' hx' hl' ha =>
        obtain rfl := Option.some.inj (hx₀.symm.trans hx')
        obtain ⟨b, y, hb, hy, hunit⟩ := (hlinks l' hl').2 a ha hwrong
        exact ⟨b, y, .step hown hl' hb, hy, hunit⟩

/-- **The links of the member's child**, where the member has taken the code unit's place. -/
theorem Steps.local_exchanged (hparsed : Parsed node root children₀)
    (hunshared : Unshared node children₀)
    {process : L → Bool → Children L N → Option (Children L N)} {l m : L} {n x : N}
    {isAgent : Bool} {children children' : Children L N}
    (h : Steps process ((node x).canAcceptBelow false) (node x).links
      (Function.update children l (children m)) children')
    (hprocess : ∀ l' ∈ (node x).links, ∀ children children', Agrees node children₀ children l' →
      process l' ((node x).canAcceptBelow false) children = some children' →
      Local node children₀ children children' l' ((node x).canAcceptBelow false))
    (hagrees : Agrees node children₀ children l) (hn : children l = some n)
    (hunit : node n = .codeUnit isAgent [m]) (hx : children m = some x) :
    Local node children₀ children children' l false := by
  have hn₀ : children₀ l = some n := (hagrees l .refl).symm.trans hn
  have hlm : Below node children₀ l m := ⟨n, hn₀, mem_links_codeUnit hunit⟩
  have honly : ∀ l', Below node children₀ l l' → l' = m := by
    rintro l' ⟨n', hn', hl'⟩
    obtain rfl := Option.some.inj (hn₀.symm.trans hn')
    exact eq_of_mem_links_codeUnit hunit hl'
  have hx₀ : children₀ m = some x := (hagrees m (.single hlm)).symm.trans hx
  have hbelow : ∀ l' ∈ (node x).links, Below node children₀ m l' :=
    fun l' hl' => ⟨x, hx₀, hl'⟩
  -- the link is not below the member that it now holds
  have hnotl : ∀ l' ∈ (node x).links, ¬ ReflTransGen (Below node children₀) l' l :=
    fun l' hl' h => not_below_child hparsed (hbelow l' hl') (h.tail hlm)
  have hml : m ≠ l := by
    rintro rfl
    exact not_below_child hparsed hlm .refl
  obtain ⟨hframe, hlinks⟩ := h.local hparsed hunshared (hparsed.nodup x) hbelow hprocess (by
    intro l' hl' a ha
    have hne : a ≠ l := by
      rintro rfl
      exact hnotl l' hl' ha
    rw [Function.update_of_ne hne]
    exact hagrees a (.head hlm (.head (hbelow l' hl') ha)))
  have hown : children' l = some x := by
    rw [hframe l hnotl, Function.update_self]
    exact hx
  refine ⟨?_, ?_, ?_⟩
  · intro a ha
    -- what is not below the link is below neither the member nor its child
    have hne : a ≠ l := by
      rintro rfl
      exact ha .refl
    have hkeep := hframe a fun l' hl' h => ha (.head hlm (.head (hbelow l' hl') h))
    rw [hkeep, Function.update_of_ne hne]
  · intro a y ha hy
    -- at the link there is now what was at the member, below it what was below the member
    rcases ReflTransGen.cases_head ha with rfl | ⟨l', hl', hl'a⟩
    · exact ⟨m, .single hlm, hx₀.trans (hown.symm.trans hy)⟩
    · obtain rfl := honly l' hl'
      rcases ReflTransGen.cases_head hl'a with rfl | ⟨l'', ⟨x', hx', hl''⟩, hl''a⟩
      · refine ⟨l', .refl, ?_⟩
        have hkeep := hframe l' fun l'' hl'' => not_below_child hparsed (hbelow l'' hl'')
        rw [hkeep, Function.update_of_ne hml, hx] at hy
        exact hx₀.trans hy
      · obtain rfl := Option.some.inj (hx₀.symm.trans hx')
        exact (hlinks l'' hl'').1 a y hl''a hy
  · intro a ha hwrong
    -- a code unit that was nested is now at the link itself
    by_cases hxunit : (node x).isCodeUnit = true
    · exact ⟨l, x, .here _ _, hown, hxunit⟩
    · cases ha with
      | here =>
          exact absurd ⟨n, isAgent, m, x, hn₀, hunit, hx₀, Bool.eq_false_iff.mpr hxunit⟩
            hwrong.2
      -- the way takes the member out as well, and goes on below it
      | @member _ m' l' _ _ isAgent' n' x' hn' hunit' hx' hl' ha =>
          obtain rfl := Option.some.inj (hn₀.symm.trans hn')
          obtain rfl := honly m' ⟨n, hn₀, mem_links_codeUnit hunit'⟩
          obtain rfl := Option.some.inj (hx₀.symm.trans hx')
          have ha' : WayFrom node children₀ l' ((node x).canAcceptBelow false) a false := by
            rw [canAcceptBelow_false]
            exact ha
          obtain ⟨b, y, hb, hy, hyunit⟩ := (hlinks l' hl').2 a ha' hwrong
          exact ⟨b, y, .step hown hl' hb, hy, hyunit⟩

/-- **What a run of the recursion does below its link**, by induction on the fuel. -/
theorem processMutator_local (hparsed : Parsed node root children₀)
    (hunshared : Unshared node children₀) (fuel : Nat) :
    ∀ {l : L} {canAccept : Bool} {children children' : Children L N},
      Agrees node children₀ children l →
      processMutator node fuel l canAccept children = some children' →
      Local node children₀ children children' l canAccept := by
  induction fuel with
  | zero =>
      intro l canAccept children children' _ h
      cases h
  | succ fuel ih =>
      intro l canAccept children children' hagrees h
      unfold processMutator at h
      obtain ⟨children₁, hexchange, h⟩ := Option.bind_eq_some_iff.mp h
      obtain ⟨x, hx, h⟩ := Option.bind_eq_some_iff.mp h
      have hsteps := steps_of_items h
      -- the links below, by the induction hypothesis; nothing or the member is put at the link
      rcases exchangeUnless_cases hexchange (Option.isSome_iff_exists.mpr ⟨x, hx⟩) with
        ⟨rfl, rfl⟩ | ⟨rfl, n, isAgent, m, hn, hunit, rfl⟩
      · exact hsteps.local_kept hparsed hunshared (fun l' _ _ _ => ih) hagrees hx
      · rw [Function.update_self] at hx
        exact hsteps.local_exchanged hparsed hunshared (fun l' _ _ _ => ih) hagrees hn hunit hx

/-! ## §5. When the pass cleans a tree. -/

/-- In a tree without sharing that the pass cleans it comes to no wrong link. -/
theorem Cleans.singleUnits (hparsed : Parsed node root children₀)
    (hunshared : Unshared node children₀) (h : Cleans node root children₀) :
    SingleUnits node root children₀ := by
  intro l ls hway hsome
  obtain ⟨fuel, out, hrun, hclean, _⟩ := h
  have hlocal := processMutator_local hparsed hunshared fuel (fun _ _ => rfl) hrun
  by_contra hwrong
  obtain ⟨a, x, ha, hx, hxunit⟩ := hlocal.wrong l hway.wayFrom ⟨hsome, hwrong⟩
  rw [hclean a (reachesFrom_root.mp ha) x hx] at hxunit
  cases hxunit

omit [DecidableEq L] in
/-- Ways lead down. -/
theorem Way.descends {l : L} {ls : List L} {canAccept : Bool}
    (h : Way node root children₀ (l :: ls) canAccept) :
    ReflTransGen (Below node children₀) root l := by
  generalize hp : l :: ls = p at h
  induction h generalizing l ls with
  | root =>
      cases hp
      exact .refl
  | child _ hn hl ih =>
      cases hp
      exact (ih rfl).tail ⟨_, hn, hl⟩
  | member _ hn hunit hx hl ih =>
      cases hp
      exact ((ih rfl).tail ⟨_, hn, mem_links_codeUnit hunit⟩).tail ⟨_, hx, hl⟩

omit [DecidableEq L] in
/-- The pass comes to a link that accepts code units from one that does. -/
theorem Way.cases_true {l : L} {ls : List L} (h : Way node root children₀ (l :: ls) true) :
    l = root ∨ ∃ p ls', ls = p :: ls' ∧ Way node root children₀ (p :: ls') true
      ∧ Below node children₀ p l := by
  obtain ⟨flag, hflag⟩ : ∃ flag, flag = true := ⟨true, rfl⟩
  rw [← hflag] at h
  cases h with
  | root => exact .inl rfl
  | @child p _ ls' n hway hn hl => exact .inr ⟨p, ls', rfl, hway, n, hn, hl⟩
  | member => cases hflag

omit [DecidableEq L] in
/-- **Without sharing there is one way to a link**, by induction on the length of a way. -/
theorem Unshared.way_unique (hparsed : Parsed node root children₀)
    (hunshared : Unshared node children₀) (k : Nat) :
    ∀ {l : L} {ls ls' : List L} {canAccept canAccept' : Bool}, ls.length ≤ k →
      Way node root children₀ (l :: ls) canAccept →
      Way node root children₀ (l :: ls') canAccept' → ls = ls' := by
  -- nothing leads back to the root
  have hroot : ∀ {p : L}, ReflTransGen (Below node children₀) root p →
      ¬ Below node children₀ p root :=
    fun hp h => not_below_child hparsed h hp
  induction k with
  | zero =>
      intro l ls ls' canAccept canAccept' hlen h h'
      obtain rfl := List.length_eq_zero_iff.mp (Nat.le_zero.mp hlen)
      cases h
      cases h' with
      | root => rfl
      | child hway hn hl => exact absurd ⟨_, hn, hl⟩ (hroot hway.descends)
      | member hway hn hunit hx hl =>
          exact absurd ⟨_, hx, hl⟩ (hroot (hway.descends.tail ⟨_, hn, mem_links_codeUnit hunit⟩))
  | succ k ih =>
      intro l ls ls' canAccept canAccept' hlen h h'
      cases h with
      | root =>
          cases h' with
          | root => rfl
          | child hway hn hl => exact absurd ⟨_, hn, hl⟩ (hroot hway.descends)
          | member hway hn hunit hx hl =>
              exact absurd ⟨_, hx, hl⟩
                (hroot (hway.descends.tail ⟨_, hn, mem_links_codeUnit hunit⟩))
      -- by cases on the last step of both ways
      | @child p _ ls n hway hn hl =>
          rw [List.length_cons] at hlen
          cases h' with
          | root => exact absurd ⟨_, hn, hl⟩ (hroot hway.descends)
          | @child p' _ ls' n' hway' hn' hl' =>
              obtain rfl := hunshared p p' l ⟨n, hn, hl⟩ ⟨n', hn', hl'⟩
              rw [ih (by omega) hway hway']
          | @member p' m _ ls' n' x isAgent hway' hn' hunit hx hl' =>
              -- the member is met as well, below a link that accepts code units
              obtain rfl := hunshared p m l ⟨n, hn, hl⟩ ⟨x, hx, hl'⟩
              have hbelow : Below node children₀ p' p := ⟨n', hn', mem_links_codeUnit hunit⟩
              rcases hway.cases_true with rfl | ⟨p₂, ls₂, rfl, hway₂, hbelow₂⟩
              · exact absurd hbelow (hroot hway'.descends)
              · obtain rfl := hunshared p₂ p' p hbelow₂ hbelow
                rw [List.length_cons] at hlen
                obtain rfl := ih (by omega) hway₂ hway'
                cases hway₂.flag_eq hway'
      | @member p m _ ls n x isAgent hway hn hunit hx hl =>
          rw [List.length_cons] at hlen
          have hbelow : Below node children₀ p m := ⟨n, hn, mem_links_codeUnit hunit⟩
          cases h' with
          | root => exact absurd ⟨_, hx, hl⟩ (hroot (hway.descends.tail hbelow))
          -- the other way round: the second way meets the member
          | @child p' _ ls' n' hway' hn' hl' =>
              obtain rfl := hunshared m p' l ⟨x, hx, hl⟩ ⟨n', hn', hl'⟩
              rcases hway'.cases_true with rfl | ⟨p₂, ls₂, rfl, hway₂, hbelow₂⟩
              · exact absurd hbelow (hroot hway.descends)
              · obtain rfl := hunshared p p₂ m hbelow hbelow₂
                obtain rfl := ih (by omega) hway hway₂
                cases hway.flag_eq hway₂
          | @member p' m' _ ls' n' x' isAgent' hway' hn' hunit' hx' hl' =>
              obtain rfl := hunshared m m' l ⟨x, hx, hl⟩ ⟨x', hx', hl'⟩
              obtain rfl := hunshared p p' m hbelow ⟨n', hn', mem_links_codeUnit hunit'⟩
              rw [ih (by omega) hway hway']

/-- A node that is not an agent, over `k` nested code units, over a leaf. -/
def chainNode (k n : Nat) : PassNode Nat :=
  if n = 0 then .plain [.singular 1] else if n ≤ k then .codeUnit true [n + 1] else .plain []

def chainChildren (k : Nat) : Children Nat Nat := fun l => if l ≤ k + 1 then some l else none

theorem mem_chainNode_links {k n l : Nat} :
    l ∈ (chainNode k n).links ↔ n ≤ k ∧ l = n + 1 := by
  unfold PassNode.links chainNode
  by_cases h0 : n = 0
  · subst h0
    simp [PassNode.itemise, Item.links]
  · by_cases hk : n ≤ k
    · simp [h0, hk, PassNode.itemise, Item.links]
    · simp [h0, hk, PassNode.itemise]

theorem chainChildren_eq_some {k l n : Nat} :
    chainChildren k l = some n ↔ l ≤ k + 1 ∧ l = n := by
  unfold chainChildren
  rw [Option.ite_none_right_eq_some, Option.some.injEq]

theorem chainNode_eq_codeUnit {k n : Nat} {isAgent : Bool} {members : List Nat}
    (h : chainNode k n = .codeUnit isAgent members) : 0 < n ∧ n ≤ k ∧ members = [n + 1] := by
  unfold chainNode at h
  by_cases h0 : n = 0
  · rw [if_pos h0] at h
    cases h
  · rw [if_neg h0] at h
    by_cases hk : n ≤ k
    · rw [if_pos hk] at h
      cases h
      exact ⟨Nat.pos_of_ne_zero h0, hk, rfl⟩
    · rw [if_neg hk] at h
      cases h

theorem chain_parsed (k : Nat) : Parsed (chainNode k) 0 (chainChildren k) where
  acyclic := by
    refine Subrelation.wf (r := fun child parent : Nat => k + 1 - child < k + 1 - parent) ?_
      (measure fun n : Nat => k + 1 - n).wf
    intro child parent h
    obtain ⟨l, hl, hchild⟩ := List.mem_filterMap.mp h
    obtain ⟨hle, rfl⟩ := mem_chainNode_links.mp hl
    obtain ⟨_, rfl⟩ := chainChildren_eq_some.mp hchild
    omega
  nodup := by
    intro n
    unfold PassNode.links chainNode
    by_cases h0 : n = 0
    · simp [h0, PassNode.itemise, Item.links]
    · by_cases hk : n ≤ k
      · simp [h0, hk, PassNode.itemise, Item.links]
      · simp [h0, hk, PassNode.itemise]
  rootNonnull := rfl
  nonnull := by
    intro l canAccept n _ _ item hitem _ l' hl'
    have hlink : l' ∈ (chainNode k n).links := List.mem_flatMap.mpr ⟨item, hitem, hl'⟩
    obtain ⟨hle, rfl⟩ := mem_chainNode_links.mp hlink
    exact Option.isSome_iff_exists.mpr
      ⟨_, chainChildren_eq_some.mpr ⟨Nat.succ_le_succ hle, rfl⟩⟩
  oneMember := by
    intro l n isAgent members _ _ hunit
    obtain ⟨_, _, rfl⟩ := chainNode_eq_codeUnit hunit
    rfl

theorem chain_unshared (k : Nat) : Unshared (chainNode k) (chainChildren k) := by
  rintro p p' l ⟨n, hn, hl⟩ ⟨n', hn', hl'⟩
  obtain ⟨_, rfl⟩ := chainChildren_eq_some.mp hn
  obtain ⟨_, rfl⟩ := chainChildren_eq_some.mp hn'
  have h := (mem_chainNode_links.mp hl).2
  have h' := (mem_chainNode_links.mp hl').2
  omega

/-- The ways in the tree with one code unit. -/
theorem chain_one_way {p : List Nat} {canAccept : Bool}
    (h : Way (chainNode 1) 0 (chainChildren 1) p canAccept) :
    (p = [0] ∧ canAccept = true) ∨ (p = [1, 0] ∧ canAccept = false) := by
  induction h with
  | root => exact .inl ⟨rfl, rfl⟩
  | child _ hn hl ih =>
      rcases ih with ⟨heq, _⟩ | ⟨_, hflag⟩
      · cases heq
        obtain ⟨_, rfl⟩ := chainChildren_eq_some.mp hn
        obtain rfl := (mem_chainNode_links.mp hl).2
        exact .inr ⟨rfl, rfl⟩
      · cases hflag
  | member _ hn hunit hx hl ih =>
      rcases ih with ⟨_, hflag⟩ | ⟨heq, _⟩
      · cases hflag
      · -- the member of the code unit has a leaf
        cases heq
        obtain ⟨_, rfl⟩ := chainChildren_eq_some.mp hn
        cases hunit
        obtain ⟨_, rfl⟩ := chainChildren_eq_some.mp hx
        exact absurd (mem_chainNode_links.mp hl).1 (by decide)

end Inferno.Lang.PostPass
