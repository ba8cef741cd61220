/-
  Inferno.Lib.Backtrack
  ─────────────────────
  Depth-first backtracking over a search tree of bounded depth, seen through
  the stack of half-explored levels that an explicit-stack search keeps.

    • `Search`   — the tree: at a path (latest choice first) the candidate
                   values, in order, and the test a value must pass,
    • `leaves`   — the complete paths below a path, in search order,
    • `Frame`    — one level of the stack: a path and its untried values,
    • `owed`     — what a stack still has to produce,
    • `weight`   — how much work a stack still holds.

  The step lemmas say how `owed` and `weight` change when the top frame drops
  a rejected value, reports a leaf, pushes a level, or is popped.  §4 is the
  licence for jumping back over several levels at once: a frame owes nothing
  when every extension of its path to some deeper level is dead.
-/
import Mathlib

namespace Inferno.Lib

/-! ## §1. The search tree. -/

/-- A search tree of depth `depth`.  Paths list the latest choice first. -/
structure Search (α : Type*) where
  depth : Nat
  choices : List α → List α
  ok : List α → α → Bool

/-- One level of the stack: the path to it and the values not tried yet. -/
structure Frame (α : Type*) where
  path : List α
  rest : List α

namespace Search

variable {α : Type*} (P : Search α)

/-- The complete paths `m` levels below `path`, in search order. -/
def leaves : Nat → List α → List (List α)
  | 0, path => [path]
  | m + 1, path => ((P.choices path).filter (P.ok path)).flatMap (fun v => leaves m (v :: path))

omit P in
theorem exists_suffix_length {path : List α} {k : Nat} (h : k ≤ path.length) :
    ∃ q, q <:+ path ∧ q.length = k :=
  ⟨path.drop (path.length - k), List.drop_suffix _ _, by rw [List.length_drop]; omega⟩

/-- Every value on the path was offered at its level and passed the test. -/
def Accepted : List α → Prop
  | [] => True
  | v :: path => v ∈ P.choices path ∧ P.ok path v = true ∧ Accepted path

theorem accepted_nil : P.Accepted [] := trivial

theorem Accepted.of_suffix {path q : List α} (hsuf : path <:+ q) (hq : P.Accepted q) :
    P.Accepted path := by
  obtain ⟨pre, rfl⟩ := hsuf
  induction pre with
  | nil => exact hq
  | cons w pre ih => exact ih hq.2.2

theorem suffix_of_mem_leaves : ∀ (m : Nat) {path q : List α}, q ∈ P.leaves m path →
    path <:+ q ∧ q.length = path.length + m := by
  intro m
  induction m with
  | zero =>
      intro path q hq
      rw [leaves, List.mem_singleton] at hq
      subst hq
      exact ⟨List.suffix_rfl, rfl⟩
  | succ m ih =>
      intro path q hq
      obtain ⟨v, _, hq⟩ := List.mem_flatMap.mp hq
      obtain ⟨hsuf, hlen⟩ := ih hq
      refine ⟨(List.suffix_cons v path).trans hsuf, ?_⟩
      rw [hlen, List.length_cons]
      omega

/-- **The leaves below an accepted path are the accepted extensions of it.** -/
theorem mem_leaves : ∀ (m : Nat) {path q : List α}, P.Accepted path →
    (q ∈ P.leaves m path ↔ path <:+ q ∧ q.length = path.length + m ∧ P.Accepted q) := by
  intro m
  induction m with
  | zero =>
      intro path q hacc
      rw [leaves, List.mem_singleton]
      constructor
      · rintro rfl
        exact ⟨List.suffix_rfl, rfl, hacc⟩
      · rintro ⟨hsuf, hlen, _⟩
        exact (hsuf.eq_of_length hlen.symm).symm
  | succ m ih =>
      intro path q hacc
      rw [leaves, List.mem_flatMap]
      constructor
      · rintro ⟨v, hv, hq⟩
        rw [List.mem_filter] at hv
        have hstep : P.Accepted (v :: path) := ⟨hv.1, hv.2, hacc⟩
        obtain ⟨hsuf, hlen, hq⟩ := (ih hstep).mp hq
        refine ⟨(List.suffix_cons v path).trans hsuf, ?_, hq⟩
        rw [hlen, List.length_cons]
        omega
      · rintro ⟨⟨pre, rfl⟩, hlen, hq⟩
        -- the level just above `path` holds the choice to descend by
        rcases List.eq_nil_or_concat pre with rfl | ⟨pre, v, rfl⟩
        · simp at hlen
        · have hsuf : (v :: path) <:+ pre.concat v ++ path := ⟨pre, by simp⟩
          have hstep : P.Accepted (v :: path) := Accepted.of_suffix P hsuf hq
          refine ⟨v, List.mem_filter.mpr ⟨hstep.1, hstep.2.1⟩, (ih hstep).mpr ⟨hsuf, ?_, hq⟩⟩
          rw [hlen, List.length_cons]
          omega

/-- The leaves of a tree whose levels offer no duplicates are distinct. -/
theorem nodup_leaves (hc : ∀ path, (P.choices path).Nodup) :
    ∀ (m : Nat) (path : List α), (P.leaves m path).Nodup := by
  intro m
  induction m with
  | zero => intro path; exact List.nodup_singleton path
  | succ m ih =>
      intro path
      rw [leaves, List.nodup_flatMap]
      refine ⟨fun v _ => ih (v :: path), ?_⟩
      refine ((hc path).filter _).imp ?_
      intro v w hvw q hqv hqw
      obtain ⟨hsv, _⟩ := P.suffix_of_mem_leaves m hqv
      obtain ⟨hsw, _⟩ := P.suffix_of_mem_leaves m hqw
      have hlen : (v :: path).length = (w :: path).length := rfl
      have heq := (List.suffix_of_suffix_length_le hsv hsw hlen.le).eq_of_length hlen
      exact hvw (List.cons.inj heq).1

/-! ## §2. Frames: what a stack owes. -/

/-- What a level at `path` with untried values `rest` still has to produce. -/
def pending (path rest : List α) : List (List α) :=
  (rest.filter (P.ok path)).flatMap (fun v => P.leaves (P.depth - path.length - 1) (v :: path))

/-- What a stack still has to produce, the innermost level first. -/
def owed (fs : List (Frame α)) : List (List α) :=
  fs.flatMap (fun f => P.pending f.path f.rest)

/-- Each frame's path is one choice longer than that of the frame below it, and
the bottom frame is the root. -/
def Stacked : List (Frame α) → Prop
  | [] => False
  | [f] => f.path = []
  | f :: g :: fs => (∃ v, f.path = v :: g.path) ∧ Stacked (g :: fs)

@[simp] theorem owed_nil : P.owed [] = [] := rfl

@[simp] theorem owed_cons (f : Frame α) (fs : List (Frame α)) :
    P.owed (f :: fs) = P.pending f.path f.rest ++ P.owed fs := rfl

@[simp] theorem pending_nil (path : List α) : P.pending path [] = [] := rfl

theorem leaves_eq_pending (path : List α) (h : path.length < P.depth) :
    P.leaves (P.depth - path.length) path = P.pending path (P.choices path) := by
  obtain ⟨m, hm⟩ : ∃ m, P.depth - path.length = m + 1 :=
    ⟨P.depth - path.length - 1, by omega⟩
  rw [pending, hm]
  rfl

/-- Values that fail the test owe nothing. -/
theorem pending_skip (path : List α) {skipped rest : List α}
    (h : ∀ v ∈ skipped, P.ok path v = false) :
    P.pending path (skipped ++ rest) = P.pending path rest := by
  have hnil : skipped.filter (P.ok path) = [] :=
    List.filter_eq_nil_iff.mpr (fun v hv => by simp [h v hv])
  rw [pending, List.filter_append, hnil, List.nil_append]
  rfl

theorem pending_eq_nil_of_skip (path : List α) {rest : List α}
    (h : ∀ v ∈ rest, P.ok path v = false) : P.pending path rest = [] := by
  have hskip : P.pending path (rest ++ []) = P.pending path [] := P.pending_skip path h
  rwa [List.append_nil] at hskip

/-- At the last level an admitted value is a leaf. -/
theorem pending_report {path rest : List α} {v : α} (hok : P.ok path v = true)
    (hlast : path.length + 1 = P.depth) :
    P.pending path (v :: rest) = (v :: path) :: P.pending path rest := by
  have hm : P.depth - path.length - 1 = 0 := by omega
  simp [pending, hok, hm, leaves]

/-- Above the last level an admitted value owes what a fresh level below it owes. -/
theorem pending_push {path rest : List α} {v : α} (hok : P.ok path v = true)
    (hmore : path.length + 1 < P.depth) :
    P.pending path (v :: rest)
      = P.pending (v :: path) (P.choices (v :: path)) ++ P.pending path rest := by
  have hsub : P.depth - path.length - 1 = P.depth - (v :: path).length := by
    rw [List.length_cons]
    omega
  rw [← P.leaves_eq_pending (v :: path) hmore]
  simp [pending, hok, hsub]

/-! ## §3. Weight. -/

/-- The work in the `m` levels below `path`. -/
def size : Nat → List α → Nat
  | 0, _ => 0
  | m + 1, path => 1 + ((P.choices path).map (fun v => 1 + size m (v :: path))).sum

/-- The work left in a level. -/
def frameWeight (path rest : List α) : Nat :=
  1 + (rest.map (fun v => 1 + P.size (P.depth - path.length - 1) (v :: path))).sum

/-- The work left in a stack. -/
def weight (fs : List (Frame α)) : Nat :=
  (fs.map (fun f => P.frameWeight f.path f.rest)).sum

@[simp] theorem weight_cons (f : Frame α) (fs : List (Frame α)) :
    P.weight (f :: fs) = P.frameWeight f.path f.rest + P.weight fs := by
  simp [weight]

theorem frameWeight_pos (path rest : List α) : 0 < P.frameWeight path rest := by
  unfold frameWeight
  omega

theorem frameWeight_skip (path skipped rest : List α) :
    P.frameWeight path rest ≤ P.frameWeight path (skipped ++ rest) := by
  simp only [frameWeight, List.map_append, List.sum_append]
  omega

theorem frameWeight_report (path rest : List α) (v : α) :
    P.frameWeight path rest < P.frameWeight path (v :: rest) := by
  simp only [frameWeight, List.map_cons, List.sum_cons]
  omega

theorem frameWeight_push {path : List α} (rest : List α) (v : α) (hmore : path.length + 1 < P.depth) :
    P.frameWeight (v :: path) (P.choices (v :: path)) + P.frameWeight path rest
      < P.frameWeight path (v :: rest) := by
  obtain ⟨m, hm⟩ : ∃ m, P.depth - path.length - 1 = m + 1 :=
    ⟨P.depth - path.length - 2, by omega⟩
  have hm' : P.depth - (v :: path).length - 1 = m := by
    rw [List.length_cons]
    omega
  simp only [frameWeight, List.map_cons, List.sum_cons, hm, hm', size]
  omega

/-! ## §4. Jumping back over dead levels. -/

/-- A level that offers no admissible value has no leaf below it. -/
theorem leaves_eq_nil_of_dead {path : List α} (hlt : path.length < P.depth)
    (h : ∀ v ∈ P.choices path, P.ok path v = false) :
    P.leaves (P.depth - path.length) path = [] := by
  rw [P.leaves_eq_pending path hlt]
  exact P.pending_eq_nil_of_skip path h

/-- If every extension of `path` to level `k` has no leaf, neither has `path`. -/
theorem leaves_eq_nil_of_extensions {k : Nat} (hk : k ≤ P.depth) :
    ∀ (d : Nat) (path : List α), path.length + d = k →
      (∀ q, path <:+ q → q.length = k → P.leaves (P.depth - k) q = []) →
      P.leaves (P.depth - path.length) path = [] := by
  intro d
  induction d with
  | zero =>
      intro path hlen h
      have hpk : path.length = k := by omega
      rw [hpk]
      exact h path List.suffix_rfl hpk
  | succ d ih =>
      intro path hlen h
      rw [P.leaves_eq_pending path (by omega), pending, List.flatMap_eq_nil_iff]
      intro v _
      have hsub : P.depth - path.length - 1 = P.depth - (v :: path).length := by
        rw [List.length_cons]
        omega
      rw [hsub]
      refine ih (v :: path) (by rw [List.length_cons]; omega) ?_
      intro q hq
      exact h q ((List.suffix_cons v path).trans hq)

/-- **The jump rule.**  A frame owes nothing when every extension of its path to
a deeper level `k` is dead, whatever values it has left. -/
theorem pending_eq_nil_of_extensions {k : Nat} (hk : k ≤ P.depth) {path : List α}
    (hlt : path.length < k)
    (h : ∀ q, path <:+ q → q.length = k → P.leaves (P.depth - k) q = []) (rest : List α) :
    P.pending path rest = [] := by
  rw [pending, List.flatMap_eq_nil_iff]
  intro v _
  have hsub : P.depth - path.length - 1 = P.depth - (v :: path).length := by
    rw [List.length_cons]
    omega
  rw [hsub]
  refine P.leaves_eq_nil_of_extensions hk (k - (v :: path).length) (v :: path) ?_ ?_
  · rw [List.length_cons]
    omega
  · intro q hq
    exact h q ((List.suffix_cons v path).trans hq)

/-! ## §5. Stacks. -/

theorem Stacked.tail {f g : Frame α} {fs : List (Frame α)} (h : Stacked (f :: g :: fs)) :
    Stacked (g :: fs) := h.2

/-- Every frame's path is a suffix of the top frame's. -/
theorem Stacked.suffix : ∀ {f : Frame α} {fs : List (Frame α)}, Stacked (f :: fs) →
    ∀ g ∈ f :: fs, g.path <:+ f.path
  | f, [], _, g, hg => by
      rw [List.mem_singleton] at hg
      subst hg
      exact List.suffix_rfl
  | f, f' :: fs, h, g, hg => by
      rcases List.mem_cons.mp hg with rfl | hg
      · exact List.suffix_rfl
      · obtain ⟨v, hv⟩ := h.1
        rw [hv]
        exact (Stacked.suffix h.2 g hg).trans (List.suffix_cons v f'.path)

/-- The top frame is the only one at its level. -/
theorem Stacked.length_lt {f : Frame α} {fs : List (Frame α)} (h : Stacked (f :: fs)) :
    ∀ g ∈ fs, g.path.length < f.path.length := by
  intro g hg
  cases fs with
  | nil => cases hg
  | cons f' fs =>
      obtain ⟨v, hv⟩ := h.1
      have hle := (Stacked.suffix h.2 g hg).length_le
      rw [hv, List.length_cons]
      omega

end Search

end Inferno.Lib
