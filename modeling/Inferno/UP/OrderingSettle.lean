/-
  Inferno.UP.OrderingSettle
  ─────────────────────────
  The loop of the ordering pass at one link: it settles.

    • `Lowers`      — intents only go from default to moveable,
    • `sweep_spec`  — one turn over the records,
    • `settle_spec` — every turn takes an intent away, so the loop ends; the default
                      patches that are left next are accepted.
-/
import Inferno.UP.NextDescendants
import Inferno.UP.OrderingRanges

namespace Inferno.UP

open Inferno.Common Inferno.DB Patch

variable {P A : Type} {db : XTreeDatabase Nat Nat A} {inOrderBases : Finset Nat} {base : Nat}
  {f g h : Intents} {p r r' : Patch P}

/-! ## §1. Intents that go. -/

/-- Intents only go from default to moveable. -/
def Lowers (f g : Intents) : Prop :=
  ∀ a, g a = f a ∨ (f a = .default ∧ g a = .moveable)

theorem Lowers.refl (f : Intents) : Lowers f f := fun _ => .inl rfl

theorem Lowers.trans (hfg : Lowers f g) (hgh : Lowers g h) : Lowers f h := by
  intro a
  rcases hgh a with hga | ⟨hga, hha⟩
  · rw [hga]
    exact hfg a
  · rcases hfg a with hfa | ⟨_, hmove⟩
    · exact .inr ⟨hfa ▸ hga, hha⟩
    · exact absurd (hga.symm.trans hmove) (by simp)

theorem Lowers.ne_default (hfg : Lowers f g) (a : Nat) (hf : f a ≠ .default) :
    g a ≠ .default := by
  rcases hfg a with hga | ⟨hfa, _⟩
  · rw [hga]
    exact hf
  · exact absurd hfa hf

/-! ## §2. Addresses. -/

/-- The next descendants lie apart. -/
theorem nodup_nextDescendants (hdistinct : (ptrs p.windIn).Nodup) :
    (ptrs ((nextDescendants f p).flatMap windIn)).Nodup :=
  hdistinct.sublist ((windIn_nextDescendants p).map ptr)

/-- A next descendant is not below another. -/
theorem ptr_notMem_below (hdistinct : (ptrs p.windIn).Nodup) (hr : r ∈ nextDescendants f p)
    (hr' : r' ∈ nextDescendants f p) : r'.ptr ∉ ptrs (windInAll r.children) := by
  have hnodup := nodup_nextDescendants (f := f) hdistinct
  rw [ptrs, List.map_flatMap, List.nodup_flatMap] at hnodup
  obtain ⟨heach, hapart⟩ := hnodup
  intro hmem
  by_cases hrr : r = r'
  · subst hrr
    have hself := heach r hr
    rw [windIn_eq, List.map_cons, List.nodup_cons] at hself
    exact hself.1 hmem
  · have hsymm : Std.Symm (Function.onFun List.Disjoint fun r : Patch P => ptrs r.windIn) :=
      ⟨fun a b hab => hab.symm⟩
    have hdisjoint := hapart.forall hr hr' hrr
    refine hdisjoint (a := r'.ptr) ?_ ?_
    · show r'.ptr ∈ ptrs r.windIn
      rw [windIn_eq]
      exact List.mem_cons_of_mem _ hmem
    · show r'.ptr ∈ ptrs r'.windIn
      rw [windIn_eq]
      exact List.mem_cons_self

/-- Their addresses are distinct. -/
theorem nodup_ptrs_nextDescendants (hdistinct : (ptrs p.windIn).Nodup) :
    (ptrs (nextDescendants f p)).Nodup := by
  have hnodup := nodup_nextDescendants (f := f) hdistinct
  refine hnodup.sublist (List.Sublist.map ptr ?_)
  induction nextDescendants f p with
  | nil => exact List.Sublist.refl _
  | cons r rs ih =>
      rw [List.flatMap_cons, windIn_eq, List.cons_append]
      exact (ih.trans (List.sublist_append_right _ _)).cons_cons r

/-! ## §3. One turn. -/

/-- Records that nothing is known of yet. -/
abbrev unflagged (ps : List (Patch P)) : List (PatchRecord P) := ps.map fun p => ⟨p, false⟩

/-- The addresses of the patches out of order. -/
def marks (records : List (PatchRecord P)) : List Nat :=
  (records.filter (·.outOfOrder)).map (·.patch.ptr)

/-- The intents after these are marked. -/
def lowered (f : Intents) (records : List (PatchRecord P)) : Intents :=
  fun a => if a ∈ marks records then .moveable else f a

/-- The patches that the records give way to. -/
def replaced (f : Intents) (records : List (PatchRecord P)) : List (Patch P) :=
  records.flatMap fun r =>
    if r.outOfOrder then nextDescendantsAll f r.patch.children else [r.patch]

/-- A record out of order has default patches next below it. -/
def hasMore (f : Intents) (records : List (PatchRecord P)) : Bool :=
  records.any fun r => r.outOfOrder && !(nextDescendantsAll f r.patch.children).isEmpty

/-- No record is below another. -/
def RecordsApart (records : List (PatchRecord P)) : Prop :=
  ∀ r ∈ records, ∀ r' ∈ records, r'.patch.ptr ∉ ptrs (windInAll r.patch.children)

/-- **One turn over the records.** -/
theorem sweep_spec (records : List (PatchRecord P)) : ∀ s : Sweep P, RecordsApart records →
    records.foldl Sweep.step s
      = ⟨s.nextPatchRecords ++ unflagged (replaced s.intents records),
          s.moreToCheck || hasMore s.intents records, lowered s.intents records⟩ := by
  induction records with
  | nil =>
      intro s _
      have hnone : lowered s.intents ([] : List (PatchRecord P)) = s.intents := by
        funext a
        simp [lowered, marks]
      simp [replaced, hasMore, hnone]
  | cons r records ih =>
      intro s hapart
      have hapart' : RecordsApart records := fun q hq q' hq' =>
        hapart q (List.mem_cons_of_mem _ hq) q' (List.mem_cons_of_mem _ hq')
      rw [List.foldl_cons, ih _ hapart']
      by_cases hout : r.outOfOrder = true
      · -- marking `r` changes nothing below the others
        have hsame : ∀ q ∈ records,
            nextDescendantsAll (Function.update s.intents r.patch.ptr .moveable) q.patch.children
              = nextDescendantsAll s.intents q.patch.children := by
          intro q hq
          refine nextDescendantsAll_congr (SameDefaults.of_eq ?_)
          intro a ha
          refine Function.update_of_ne ?_ _ _
          rintro rfl
          exact hapart q (List.mem_cons_of_mem _ hq) r List.mem_cons_self ha
        have hreplaced : replaced (Function.update s.intents r.patch.ptr .moveable) records
            = replaced s.intents records := by
          refine List.flatMap_congr ?_
          intro q hq
          rw [hsame q hq]
        have hmore : hasMore (Function.update s.intents r.patch.ptr .moveable) records
            = hasMore s.intents records := by
          unfold hasMore
          rw [Bool.eq_iff_iff, List.any_eq_true, List.any_eq_true]
          constructor
          · rintro ⟨q, hq, hmore⟩
            exact ⟨q, hq, by rwa [hsame q hq] at hmore⟩
          · rintro ⟨q, hq, hmore⟩
            exact ⟨q, hq, by rwa [hsame q hq]⟩
        have hlowered : lowered (Function.update s.intents r.patch.ptr .moveable) records
            = lowered s.intents (r :: records) := by
          -- `r` is marked, and the others as before
          funext a
          unfold lowered marks
          rw [List.filter_cons_of_pos hout, List.map_cons]
          by_cases ha : a = r.patch.ptr
          · subst ha
            simp
          · rw [Function.update_of_ne ha]
            refine if_congr ?_ rfl rfl
            rw [List.mem_cons, or_iff_right ha]
        have hstep : s.step r = ⟨s.nextPatchRecords
              ++ unflagged (nextDescendantsAll s.intents r.patch.children),
            s.moreToCheck || !(nextDescendantsAll s.intents r.patch.children).isEmpty,
            Function.update s.intents r.patch.ptr .moveable⟩ := by
          unfold Sweep.step
          rw [if_pos hout]
        rw [hstep, hreplaced, hmore, hlowered]
        simp [replaced, hasMore, hout, unflagged, List.append_assoc, Bool.or_assoc]
      · -- a record in order is taken over
        have hlowered : lowered s.intents records = lowered s.intents (r :: records) := by
          funext a
          unfold lowered marks
          rw [List.filter_cons_of_neg hout]
        have hstep : s.step r
            = { s with nextPatchRecords := s.nextPatchRecords ++ [r] } := by
          unfold Sweep.step
          rw [if_neg hout]
        have hr : r = ⟨r.patch, false⟩ := by
          cases r
          simpa using hout
        rw [hstep, hlowered]
        rw [hr]
        simp [replaced, hasMore, unflagged]

/-! ## §4. The loop. -/

/-- A record keeps its intent unless it is out of order. -/
theorem lowered_default_iff {records : List (PatchRecord P)}
    (hnodup : (records.map (·.patch.ptr)).Nodup)
    (hdefault : ∀ r ∈ records, f r.patch.ptr = .default) {r : PatchRecord P}
    (hr : r ∈ records) : lowered f records r.patch.ptr = .default ↔ r.outOfOrder = false := by
  have hmark : r.patch.ptr ∈ marks records ↔ r.outOfOrder = true := by
    unfold marks
    rw [List.mem_map]
    constructor
    · rintro ⟨r', hr', heq⟩
      obtain ⟨hr', hout⟩ := List.mem_filter.mp hr'
      rw [← List.inj_on_of_nodup_map hnodup hr' hr heq]
      exact hout
    · intro hout
      exact ⟨r, List.mem_filter.mpr ⟨hr, hout⟩, rfl⟩
  unfold lowered
  by_cases hout : r.outOfOrder = true
  · rw [if_pos (hmark.mpr hout), hout]
    simp
  · rw [if_neg fun h => hout (hmark.mp h), hdefault r hr]
    simpa using hout

theorem lowers_lowered {records : List (PatchRecord P)}
    (hdefault : ∀ r ∈ records, f r.patch.ptr = .default) : Lowers f (lowered f records) := by
  intro a
  unfold lowered
  by_cases ha : a ∈ marks records
  · rw [if_pos ha]
    obtain ⟨r, hr, rfl⟩ := List.mem_map.mp ha
    exact .inr ⟨hdefault r (List.mem_filter.mp hr).1, rfl⟩
  · rw [if_neg ha]
    exact .inl rfl

/-- **The patches that the records give way to** are the next descendants after the
turn. -/
theorem replaced_eq {records : List (PatchRecord P)} (hdistinct : (ptrs p.windIn).Nodup)
    (hpatches : records.map (·.patch) = nextDescendants f p) :
    nextDescendants (lowered f records) p = replaced f records := by
  have hmem : ∀ r ∈ records, r.patch ∈ nextDescendants f p := by
    intro r hr
    rw [← hpatches]
    exact List.mem_map_of_mem hr
  have hdefault : ∀ r ∈ records, f r.patch.ptr = .default := fun r hr =>
    (mem_nextDescendants (hmem r hr)).1
  have hnodup : (records.map (·.patch.ptr)).Nodup := by
    have hptrs := nodup_ptrs_nextDescendants (f := f) hdistinct
    rw [← hpatches, ptrs, List.map_map] at hptrs
    exact hptrs
  rw [nextDescendants_lower (lowers_lowered hdefault).ne_default, ← hpatches, List.flatMap_map]
  refine List.flatMap_congr ?_
  intro r hr
  by_cases hout : r.outOfOrder = true
  · have hlow : lowered f records r.patch.ptr ≠ .default := by
      rw [Ne, lowered_default_iff hnodup hdefault hr, hout]
      simp
    rw [if_neg hlow, if_pos hout]
    -- no mark is below a record
    refine nextDescendantsAll_congr (SameDefaults.of_eq ?_)
    intro a ha
    unfold lowered
    refine if_neg ?_
    intro hmark
    obtain ⟨r', hr', rfl⟩ := List.mem_map.mp hmark
    exact ptr_notMem_below hdistinct (hmem r hr) (hmem r' (List.mem_filter.mp hr').1) ha
  · have hin : r.outOfOrder = false := by simpa using hout
    rw [if_pos ((lowered_default_iff hnodup hdefault hr).mpr hin), if_neg hout]

/-- Without more to check, the patches left are those in order. -/
theorem replaced_settled {records : List (PatchRecord P)} (hmore : hasMore f records = false) :
    replaced f records = accepted records := by
  unfold replaced accepted
  unfold hasMore at hmore
  rw [List.any_eq_false] at hmore
  induction records with
  | nil => rfl
  | cons r records ih =>
      rw [List.flatMap_cons, ih fun q hq => hmore q (List.mem_cons_of_mem _ hq)]
      have hr := hmore r List.mem_cons_self
      by_cases hout : r.outOfOrder = true
      · have hnil : nextDescendantsAll f r.patch.children = [] := by simpa [hout] using hr
        simp [hout, hnil]
      · simp [hout]

/-- How many patches still have the default intent. -/
def defaultCount (f : Intents) (ps : List (Patch P)) : Nat :=
  ps.countP fun p => decide (f p.ptr = .default)

theorem defaultCount_lt {ps : List (Patch P)} (hfg : Lowers f g) (hr : r ∈ ps)
    (hf : f r.ptr = .default) (hg : g r.ptr ≠ .default) : defaultCount g ps < defaultCount f ps := by
  have hle : ∀ q : Patch P, g q.ptr = .default → f q.ptr = .default := by
    intro q hq
    by_contra hne
    exact hfg.ne_default q.ptr hne hq
  have hmono : ∀ qs : List (Patch P), defaultCount g qs ≤ defaultCount f qs := fun qs =>
    List.countP_mono_left fun q _ hq => by
      simpa using hle q (by simpa using hq)
  obtain ⟨ps₁, ps₂, rfl⟩ := List.append_of_mem hr
  have h₁ := hmono ps₁
  have h₂ := hmono ps₂
  unfold defaultCount at h₁ h₂ ⊢
  rw [List.countP_append, List.countP_append, List.countP_cons_of_neg (by simpa using hg),
    List.countP_cons_of_pos (by simpa using hf)]
  omega

/-- **The loop settles**: the intents go down with each turn, and the default patches that
are left next are those in order. -/
theorem settle_spec (inOrderBases : Finset Nat) (hbase : base ∈ db.rows.keys)
    (hdistinct : (ptrs p.windIn).Nodup)
    (hrows : ∀ q ∈ p.windIn, ∀ a, q.base? = some a → a ∈ db.rows.keys) (fuel : Nat) :
    ∀ {f : Intents}, defaultCount f p.windIn < fuel → ∃ records g,
      settle db inOrderBases base fuel (unflagged (nextDescendants f p)) f = some (records, g)
        ∧ Lowers f g ∧ (∀ a ∉ ptrs p.windIn, g a = f a)
        ∧ accepted records = nextDescendants g p
        ∧ Accepts db inOrderBases base (nextDescendants g p) := by
  induction fuel with
  | zero =>
      intro f hfuel
      omega
  | succ fuel ih =>
      intro f hfuel
      unfold settle
      -- no default patch is left
      by_cases hnil : nextDescendants f p = []
      · rw [hnil]
        refine ⟨[], f, rfl, Lowers.refl f, fun _ _ => rfl, ?_, ?_⟩
        · rw [hnil]
          rfl
        · rw [hnil]
          exact ⟨by simp, List.Pairwise.nil⟩
      have hne : unflagged (nextDescendants f p) ≠ [] := by
        simpa [unflagged] using hnil
      rw [if_neg (by simpa using hne)]
      have hbases : HaveBases db (unflagged (nextDescendants f p)) := by
        intro r hr
        obtain ⟨q, hq, rfl⟩ := List.mem_map.mp hr
        obtain ⟨_, a, ha⟩ := mem_nextDescendants hq
        exact ⟨a, ha, hrows q (mem_windIn_of_nextDescendants hq) a ha⟩
      -- the ranges say which records are out of order
      obtain ⟨records, hfind, hpatches, haccepts⟩ :=
        findOutOfOrderTreePatches_spec hbase hbases hne
      rw [hfind]
      have hpatches : records.map (·.patch) = nextDescendants f p := by
        rw [hpatches, List.map_map]
        exact List.map_id _
      have hmem : ∀ r ∈ records, r.patch ∈ nextDescendants f p := by
        intro r hr
        rw [← hpatches]
        exact List.mem_map_of_mem hr
      have hdefault : ∀ r ∈ records, f r.patch.ptr = .default := fun r hr =>
        (mem_nextDescendants (hmem r hr)).1
      -- a patch is only once among them, and none is below another
      have hnodup : (records.map (·.patch.ptr)).Nodup := by
        have hptrs := nodup_ptrs_nextDescendants (f := f) hdistinct
        rw [← hpatches, ptrs, List.map_map] at hptrs
        exact hptrs
      have hapart : RecordsApart records := fun r hr r' hr' =>
        ptr_notMem_below hdistinct (hmem r hr) (hmem r' hr')
      have hlowers := lowers_lowered hdefault
      have hframe : ∀ a ∉ ptrs p.windIn, lowered f records a = f a := by
        intro a ha
        unfold lowered
        refine if_neg ?_
        intro hmark
        obtain ⟨r, hr, rfl⟩ := List.mem_map.mp hmark
        exact ha (List.mem_map_of_mem
          (mem_windIn_of_nextDescendants (hmem r (List.mem_filter.mp hr).1)))
      -- one turn replaces each of those by what is next below it
      have hreplaced := replaced_eq hdistinct hpatches
      dsimp only [Option.bind_eq_bind, Option.bind_some]
      rw [sweep_spec records _ hapart]
      dsimp only
      rw [List.nil_append, Bool.false_or, ← hreplaced]
      -- and it is the last turn when none of these was replaced by anything
      cases hmore : hasMore f records with
      | false =>
          rw [if_neg (by simp)]
          have hsettled : accepted records = nextDescendants (lowered f records) p :=
            (replaced_settled hmore).symm.trans hreplaced.symm
          exact ⟨records, _, rfl, hlowers, hframe, hsettled, hsettled ▸ haccepts⟩
      | true =>
          rw [if_pos rfl]
          -- a patch out of order has lost its intent
          have hless : defaultCount (lowered f records) p.windIn < defaultCount f p.windIn := by
            obtain ⟨r, hr, hr'⟩ := List.any_eq_true.mp hmore
            have hout : r.outOfOrder = true := (Bool.and_eq_true_iff.mp hr').1
            refine defaultCount_lt hlowers (mem_windIn_of_nextDescendants (hmem r hr))
              (hdefault r hr) ?_
            rw [Ne, lowered_default_iff hnodup hdefault hr, hout]
            simp
          have hcount : defaultCount (lowered f records) p.windIn < fuel := by omega
          obtain ⟨records', g, hrun, hlowers', hframe', hrest⟩ := ih hcount
          refine ⟨records', g, hrun, hlowers.trans hlowers', ?_, hrest⟩
          intro a ha
          rw [hframe' a ha, hframe a ha]

end Inferno.UP
