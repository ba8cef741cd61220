/-
  Inferno.Lib.DepthFirst
  ──────────────────────
  A depth-first walk over the edges of an acyclic graph.

    • `Walk`       — the edges met, in preorder, and the nodes they lead to,
    • `walk`       — the recursion: an edge is met once, a node is expanded once,
    • `Follows`    — an edge out of the node that another edge leads to,
    • `mem_walk`   — a walk meets exactly the edges that follow from its first,
    • `postorder`  — the same recursion without its memory, children first,
    • `two_le_count_postorder` — what it meets more than once.
-/
import Mathlib.Data.Finset.Basic
import Mathlib.Logic.Relation

namespace Inferno.Lib

/-! ## §1. The walk. -/

/-- What a walk has met. -/
structure Walk (N E : Type) where
  edges : List E
  nodes : Finset N

section

variable {N E : Type} [DecidableEq N] [DecidableEq E]

/-- Nothing met. -/
def Walk.empty : Walk N E := ⟨[], ∅⟩

variable (target : E → N) (expand : N → List E)

/-- One edge, and what follows from it.  The number bounds the depth. -/
def walk : Nat → Walk N E → E → Walk N E
  | 0, w, _ => w
  | depth + 1, w, e =>
      if e ∈ w.edges then w
      else if target e ∈ w.nodes then ⟨w.edges ++ [e], w.nodes⟩
      else (expand (target e)).foldl (walk depth) ⟨w.edges ++ [e], insert (target e) w.nodes⟩

/-- An edge out of the node that `e` leads to. -/
def Follows (e f : E) : Prop := f ∈ expand (target e)

/-- Any number of them. -/
def FollowsAll (e f : E) : Prop := Relation.ReflTransGen (Follows target expand) e f

/-! ## §2. What one edge adds. -/

/-- What a walk from the edges `starts` adds: what follows from them only, and with each
new node all its edges. -/
structure Adds (starts : List E) (w w' : Walk N E) : Prop where
  edges_mono : ∀ e ∈ w.edges, e ∈ w'.edges
  nodes_mono : w.nodes ⊆ w'.nodes
  starts_mem : ∀ e ∈ starts, e ∈ w'.edges
  target_mem : ∀ e ∈ w'.edges, e ∉ w.edges → target e ∈ w'.nodes
  expanded : ∀ a ∈ w'.nodes, a ∉ w.nodes → ∀ e ∈ expand a, e ∈ w'.edges
  follows : ∀ e ∈ w'.edges, e ∉ w.edges → ∃ s ∈ starts, FollowsAll target expand s e
  reached : ∀ a ∈ w'.nodes, a ∉ w.nodes → ∃ e ∈ w'.edges, target e = a

variable {target expand}

omit [DecidableEq N] [DecidableEq E] in
theorem Adds.nil (w : Walk N E) : Adds target expand [] w w := by
  refine ⟨fun e he => he, Finset.Subset.refl _, by simp, ?_, ?_, ?_, ?_⟩
  · intro e he hout
    exact absurd he hout
  · intro a ha hout
    exact absurd ha hout
  · intro e he hout
    exact absurd he hout
  · intro a ha hout
    exact absurd ha hout

theorem Adds.cons {e : E} {starts : List E} {w w₁ w' : Walk N E}
    (h : Adds target expand [e] w w₁) (h' : Adds target expand starts w₁ w') :
    Adds target expand (e :: starts) w w' := by
  refine ⟨?_, h.nodes_mono.trans h'.nodes_mono, ?_, ?_, ?_, ?_, ?_⟩
  · intro f hf
    exact h'.edges_mono f (h.edges_mono f hf)
  · intro f hf
    rcases List.mem_cons.mp hf with rfl | hf
    · exact h'.edges_mono f (h.starts_mem f List.mem_cons_self)
    · exact h'.starts_mem f hf
  · -- what is new came with the first start, or with the others after it
    intro f hf hout
    by_cases hmid : f ∈ w₁.edges
    · exact h'.nodes_mono (h.target_mem f hmid hout)
    · exact h'.target_mem f hf hmid
  · intro a ha hout f hf
    by_cases hmid : a ∈ w₁.nodes
    · exact h'.edges_mono f (h.expanded a hmid hout f hf)
    · exact h'.expanded a ha hmid f hf
  · intro f hf hout
    by_cases hmid : f ∈ w₁.edges
    · obtain ⟨s, hs, hfollows⟩ := h.follows f hmid hout
      rw [List.mem_singleton] at hs
      exact ⟨s, by rw [hs]; exact List.mem_cons_self, hfollows⟩
    · obtain ⟨s, hs, hfollows⟩ := h'.follows f hf hmid
      exact ⟨s, List.mem_cons_of_mem e hs, hfollows⟩
  · intro a ha hout
    by_cases hmid : a ∈ w₁.nodes
    · obtain ⟨f, hf, hfa⟩ := h.reached a hmid hout
      exact ⟨f, h'.edges_mono f hf, hfa⟩
    · exact h'.reached a ha hmid

variable {rank : N → Nat} (hrank : ∀ a, ∀ e ∈ expand a, rank (target e) < rank a)
include hrank

/-- **One edge**, by induction on the depth: its node is not expanded again below. -/
theorem adds_walk (depth : Nat) :
    ∀ (w : Walk N E) (e : E), rank (target e) < depth →
      Adds target expand [e] w (walk target expand depth w e) := by
  -- on the depth, which exceeds the rank of the target
  induction depth with
  | zero =>
      intro w e hlt
      exact absurd hlt (Nat.not_lt_zero _)
  | succ depth ih =>
      intro w e hlt
      have hloop : ∀ (l : List E), (∀ f ∈ l, rank (target f) < depth) → ∀ (v : Walk N E),
          Adds target expand l v (l.foldl (walk target expand depth) v) := by
        intro l
        induction l with
        | nil => intro _ v; exact Adds.nil v
        | cons f l ihl =>
            intro hl v
            exact (ih v f (hl f List.mem_cons_self)).cons
              (ihl (fun g hg => hl g (List.mem_cons_of_mem f hg)) _)
      rw [walk]
      split
      -- met before: nothing is added
      next hmet =>
        have hnil : Adds target expand [] w w := Adds.nil w
        refine ⟨hnil.edges_mono, hnil.nodes_mono, ?_, hnil.target_mem, hnil.expanded, ?_,
          hnil.reached⟩
        · intro f hf
          rw [List.mem_singleton.mp hf]
          exact hmet
        · intro f hf hout
          exact absurd hf hout
      next hmet =>
        split
        -- its node was met by another edge: the edge alone is added
        next hnode =>
          refine ⟨?_, Finset.Subset.refl _, ?_, ?_, ?_, ?_, ?_⟩
          · intro f hf
            exact List.mem_append_left _ hf
          · intro f hf
            exact List.mem_append_right _ hf
          · intro f hf hout
            rcases List.mem_append.mp hf with hf | hf
            · exact absurd hf hout
            · rw [List.mem_singleton.mp hf]
              exact hnode
          · intro a ha hout
            exact absurd ha hout
          · intro f hf hout
            rcases List.mem_append.mp hf with hf | hf
            · exact absurd hf hout
            · exact ⟨e, List.mem_cons_self, by rw [List.mem_singleton.mp hf]; exact .refl⟩
          · intro a ha hout
            exact absurd ha hout
        -- a new node: its edges are walked in turn
        next hnode =>
          have hadds := hloop (expand (target e))
            (fun f hf => lt_of_lt_of_le (hrank _ f hf) (Nat.lt_succ_iff.mp hlt))
            ⟨w.edges ++ [e], insert (target e) w.nodes⟩
          refine ⟨?_, (Finset.subset_insert _ _).trans hadds.nodes_mono, ?_, ?_, ?_, ?_, ?_⟩
          · intro f hf
            exact hadds.edges_mono f (List.mem_append_left _ hf)
          · intro f hf
            exact hadds.edges_mono f (List.mem_append_right _ hf)
          · intro f hf hout
            by_cases hfe : f = e
            · rw [hfe]
              exact hadds.nodes_mono (Finset.mem_insert_self _ _)
            · exact hadds.target_mem f hf (by simp [hout, hfe])
          · intro a ha hout f hf
            by_cases hae : a = target e
            · rw [hae] at hf
              exact hadds.starts_mem f hf
            · exact hadds.expanded a ha (by simp [hout, hae]) f hf
          · intro f hf hout
            by_cases hfe : f = e
            · exact ⟨e, List.mem_cons_self, by rw [hfe]; exact .refl⟩
            · obtain ⟨s, hs, hfollows⟩ := hadds.follows f hf (by simp [hout, hfe])
              exact ⟨e, List.mem_cons_self, .head hs hfollows⟩
          · intro a ha hout
            by_cases hae : a = target e
            · exact ⟨e, hadds.edges_mono e (by simp), hae.symm⟩
            · exact hadds.reached a ha (by simp [hout, hae])

/-! ## §3. A walk from nothing. -/

/-- **A walk meets exactly what follows from its first edge.** -/
theorem mem_walk {depth : Nat} {e : E} (hlt : rank (target e) < depth) (f : E) :
    f ∈ (walk target expand depth .empty e).edges ↔ FollowsAll target expand e f := by
  have hadds := adds_walk hrank depth .empty e hlt
  constructor
  · intro hf
    obtain ⟨s, hs, hfollows⟩ := hadds.follows f hf List.not_mem_nil
    rw [List.mem_singleton.mp hs] at hfollows
    exact hfollows
  · intro hf
    induction hf with
    | refl => exact hadds.starts_mem e List.mem_cons_self
    | tail _ hstep ih =>
        have hnode := hadds.target_mem _ ih List.not_mem_nil
        exact hadds.expanded _ hnode (Finset.notMem_empty _) _ hstep

/-- And exactly the nodes that these lead to. -/
theorem mem_walk_nodes {depth : Nat} {e : E} (hlt : rank (target e) < depth) (a : N) :
    a ∈ (walk target expand depth .empty e).nodes
      ↔ ∃ f, FollowsAll target expand e f ∧ target f = a := by
  have hadds := adds_walk hrank depth .empty e hlt
  constructor
  · intro ha
    obtain ⟨f, hf, hfa⟩ := hadds.reached a ha (Finset.notMem_empty _)
    exact ⟨f, (mem_walk hrank hlt f).mp hf, hfa⟩
  · intro ha
    obtain ⟨f, hf, rfl⟩ := ha
    exact hadds.target_mem f ((mem_walk hrank hlt f).mpr hf) List.not_mem_nil

end

/-! ## §4. Without memory. -/

section

variable {N E : Type} (target : E → N) (expand : N → List E)

/-- The edges below one edge, and then the edge itself; an edge is met as often as there
are ways to it. -/
def postorder : Nat → E → List E
  | 0, _ => []
  | depth + 1, e => (expand (target e)).flatMap (postorder depth) ++ [e]

variable {target expand}
variable {rank : N → Nat} (hrank : ∀ a, ∀ e ∈ expand a, rank (target e) < rank a)
include hrank

/-- **It meets exactly what follows from its first edge**, by induction on the depth. -/
theorem mem_postorder (depth : Nat) :
    ∀ (e f : E), rank (target e) < depth →
      (f ∈ postorder target expand depth e ↔ FollowsAll target expand e f) := by
  induction depth with
  | zero =>
      intro e f hlt
      exact absurd hlt (Nat.not_lt_zero _)
  | succ depth ih =>
      intro e f hlt
      have hchild : ∀ g ∈ expand (target e), rank (target g) < depth :=
        fun g hg => lt_of_lt_of_le (hrank _ g hg) (Nat.lt_succ_iff.mp hlt)
      rw [postorder, List.mem_append, List.mem_flatMap, List.mem_singleton]
      constructor
      · intro h
        rcases h with h | rfl
        · obtain ⟨g, hg, hf⟩ := h
          exact .head hg ((ih g f (hchild g hg)).mp hf)
        · exact .refl
      · intro h
        rcases Relation.ReflTransGen.cases_head h with rfl | h
        · exact Or.inr rfl
        · obtain ⟨g, hg, hf⟩ := h
          exact Or.inl ⟨g, hg, (ih g f (hchild g hg)).mpr hf⟩

end

/-! ## §5. How often. -/

section

variable {N E : Type} [DecidableEq E] {target : E → N} {expand : N → List E}
variable {rank : N → Nat} (hrank : ∀ a, ∀ e ∈ expand a, rank (target e) < rank a)
variable (hnodup : ∀ a, (expand a).Nodup)
include hrank hnodup

/-- **An edge is met once for every time that an edge to its node is**, and once more if
it is the first, by induction on the depth. -/
theorem count_postorder (f : E) (depth : Nat) :
    ∀ e, rank (target e) < depth → (postorder target expand depth e).count f
      = ((postorder target expand depth e).countP fun g => decide (f ∈ expand (target g)))
        + (if e = f then 1 else 0) := by
  induction depth with
  | zero =>
      intro e hlt
      exact absurd hlt (Nat.not_lt_zero _)
  | succ depth ih =>
      intro e hlt
      -- an edge listed here is met once for each time it is listed
      have hbelow : ∀ l : List E, (∀ g ∈ l, rank (target g) < depth) →
          (l.flatMap (postorder target expand depth)).count f
            = ((l.flatMap (postorder target expand depth)).countP
                fun g => decide (f ∈ expand (target g))) + l.count f := by
        intro l
        induction l with
        | nil =>
            intro _
            rfl
        | cons g l ihl =>
            intro hl
            have hg := ih g (hl g List.mem_cons_self)
            have hrest := ihl fun h hh => hl h (List.mem_cons_of_mem g hh)
            rw [List.flatMap_cons, List.count_append, List.countP_append, hg, hrest,
              List.count_cons]
            simp only [beq_iff_eq]
            omega
      -- the edges out of one node are all different
      have hone : (expand (target e)).count f = if f ∈ expand (target e) then 1 else 0 :=
        List.Nodup.count (hnodup _)
      have hlast : [e].countP (fun g => decide (f ∈ expand (target g)))
          = if f ∈ expand (target e) then 1 else 0 := by
        simp [List.countP_cons]
      have hself : [e].count f = if e = f then 1 else 0 := by
        simp [List.count_cons]
      rw [postorder, List.count_append, List.countP_append, hlast, hself,
        hbelow _ fun g hg => lt_of_lt_of_le (hrank _ g hg) (Nat.lt_succ_iff.mp hlt), hone]

omit [DecidableEq E] hnodup in
/-- What follows from an edge is below it. -/
theorem rank_followsAll {e f : E} (h : FollowsAll target expand e f) :
    rank (target f) ≤ rank (target e) := by
  induction h with
  | refl => exact Nat.le_refl _
  | tail _ hstep ih => exact Nat.le_trans (Nat.le_of_lt (hrank _ _ hstep)) ih

/-- **An edge is met twice exactly where it follows from one that two edges lead on to.**
The way there by induction on how far the edge is below the first, the way back along the
chain. -/
theorem two_le_count_postorder {depth : Nat} {e : E} (hlt : rank (target e) < depth) (f : E) :
    2 ≤ (postorder target expand depth e).count f ↔
      ∃ g g' h, g ≠ g' ∧ FollowsAll target expand e g ∧ FollowsAll target expand e g' ∧
        h ∈ expand (target g) ∧ h ∈ expand (target g') ∧ FollowsAll target expand h f := by
  have hmem := fun g => mem_postorder hrank depth e g hlt
  -- at the least such edge two edges meet, else the one before it is met twice
  constructor
  · have hall : ∀ n f, rank (target e) - rank (target f) ≤ n →
        2 ≤ (postorder target expand depth e).count f →
        ∃ g g' h, g ≠ g' ∧ FollowsAll target expand e g ∧ FollowsAll target expand e g' ∧
          h ∈ expand (target g) ∧ h ∈ expand (target g') ∧ FollowsAll target expand h f := by
      intro n
      induction n with
      | zero =>
          intro f hn htwo
          rw [count_postorder hrank hnodup f depth e hlt] at htwo
          have hpos : 0 < (postorder target expand depth e).countP
              fun g => decide (f ∈ expand (target g)) := by
            split at htwo <;> omega
          obtain ⟨g, hg, hf⟩ := List.countP_pos_iff.mp hpos
          have hlow := hrank _ f (of_decide_eq_true hf)
          have hhigh := rank_followsAll hrank ((hmem g).mp hg)
          omega
      | succ n ih =>
          intro f hn htwo
          rw [count_postorder hrank hnodup f depth e hlt] at htwo
          have hpos : 0 < (postorder target expand depth e).countP
              fun g => decide (f ∈ expand (target g)) := by
            split at htwo <;> omega
          obtain ⟨g, hg, hf⟩ := List.countP_pos_iff.mp hpos
          have hfg : f ∈ expand (target g) := of_decide_eq_true hf
          have hlow := hrank _ f hfg
          have hhigh := rank_followsAll hrank ((hmem g).mp hg)
          have hef : e ≠ f := by
            rintro rfl
            omega
          rw [if_neg hef] at htwo
          by_cases hother : ∃ g' ∈ postorder target expand depth e,
              f ∈ expand (target g') ∧ g ≠ g'
          · obtain ⟨g', hg', hfg', hne⟩ := hother
            exact ⟨g, g', f, hne, (hmem g).mp hg, (hmem g').mp hg', hfg, hfg', .refl⟩
          · -- all the ways to `f` go through one edge, which is then met twice itself
            have hle : (postorder target expand depth e).countP
                  (fun g => decide (f ∈ expand (target g)))
                ≤ (postorder target expand depth e).count g := by
              refine List.countP_mono_left ?_
              intro x hx hfx
              by_contra hxg
              exact hother ⟨x, hx, of_decide_eq_true hfx, fun h => hxg (by simp [h])⟩
            obtain ⟨h, h', k, hne, hh, hh', hk, hk', hchain⟩ := ih g (by omega) (by omega)
            exact ⟨h, h', k, hne, hh, hh', hk, hk', hchain.tail hfg⟩
    exact hall _ f (Nat.le_refl _)
  · -- along the chain, from where the two edges meet
    rintro ⟨g, g', h, hne, hg, hg', hhg, hhg', hchain⟩
    induction hchain with
    | refl =>
        have hsub : [g, g'] ⊆ (postorder target expand depth e).filter
            fun x => decide (h ∈ expand (target x)) := by
          intro x hx
          rw [List.mem_filter]
          have hx' : x = g ∨ x = g' := by simpa using hx
          rcases hx' with rfl | rfl
          · exact ⟨(hmem x).mpr hg, decide_eq_true hhg⟩
          · exact ⟨(hmem x).mpr hg', decide_eq_true hhg'⟩
        have hlen := (List.subperm_of_subset (by simp [hne]) hsub).length_le
        rw [← List.countP_eq_length_filter] at hlen
        have htwo : 2 ≤ (postorder target expand depth e).countP
            fun x => decide (h ∈ expand (target x)) := hlen
        rw [count_postorder hrank hnodup h depth e hlt]
        omega
    | @tail k f hup hstep ih =>
        have hle : (postorder target expand depth e).count k
            ≤ (postorder target expand depth e).countP
              fun x => decide (f ∈ expand (target x)) := by
          refine List.countP_mono_left ?_
          intro x _ hxk
          have hx : x = k := by simpa using hxk
          exact decide_eq_true (by rw [hx]; exact hstep)
        rw [count_postorder hrank hnodup f depth e hlt]
        omega

end

end Inferno.Lib
