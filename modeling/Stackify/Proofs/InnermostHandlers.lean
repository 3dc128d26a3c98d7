import Mathlib.Data.List.Induction
import Mathlib.Data.List.Pairwise
import Stackify.Code.Validity
import Stackify.Machine.Step
import Stackify.Proofs.Success

/-!
Which handler an exception goes to.

The protected ranges of a valid method are nested in or apart from each other. Of the ranges around
a position the machine chooses one that starts last, which lies in all others, except those that
start with it and are listed before it (`handler?_nested`).
-/

namespace Stackify.Code

/-! ## Protected ranges -/

/-- The range that a region protects, between its two labels. -/
def Region.range? (ops : List Op) (r : Region) : Option Span := do
  let start ← position? ops r.tryStart
  let stop ← position? ops r.tryEnd
  return (start, stop)

/-- A position is strictly inside a span. -/
def Span.Surrounds (a : Span) (pc : Nat) : Prop := a.1 < pc ∧ pc < a.2

instance (a : Span) (pc : Nat) : Decidable (a.Surrounds pc) := inferInstanceAs (Decidable (_ ∧ _))

/-- The region number `i` protects the range `a`, which is around a position. -/
def Body.Protects (b : Body) (pc i : Nat) (a : Span) : Prop :=
  ∃ r, b.regions[i]? = some r ∧ r.range? b.ops = some a ∧ a.Surrounds pc

theorem Span.wellNested_comm (a b : Span) : a.wellNested b = b.wellNested a := by
  simp only [Span.wellNested, Span.overlaps, Bool.or_assoc, Bool.and_comm,
    Bool.or_comm (a.contains b)]

variable {a b : Span} {spans : List (Nat × Span)} {ops : List Op} {r : Region}

/-- Of two ranges around a position that do not cross, one contains the other. -/
theorem Span.Surrounds.contains {pc : Nat} (ha : a.Surrounds pc) (hb : b.Surrounds pc)
    (h : a.wellNested b = true) : a.contains b = true ∨ b.contains a = true := by
  obtain ⟨ha₁, ha₂⟩ := ha
  obtain ⟨hb₁, hb₂⟩ := hb
  have hoverlaps : a.overlaps b = true := by
    simp only [Span.overlaps, Bool.and_eq_true, decide_eq_true_eq]
    omega
  simpa [Span.wellNested, hoverlaps] using h

/-! ## What a valid method has -/

/-- Spans of different regions do not cross. -/
def Apart (x y : Nat × Span) : Prop := x.1 ≠ y.1 → x.2.wellNested y.2 = true

theorem Apart.symm {x y : Nat × Span} (h : Apart x y) : Apart y x :=
  fun hne => Span.wellNested_comm _ _ ▸ h hne.symm

theorem pairwise_apart (h : crossing? spans = none) : spans.Pairwise Apart := by
  induction spans with
  | nil => exact .nil
  | cons x spans ih =>
    obtain ⟨i, a⟩ := x
    rw [crossing?] at h
    split at h
    · cases h
    · next hnone =>
      refine .cons (fun y hy hne => ?_) (ih h)
      simpa [hne] using List.find?_eq_none.mp hnone y hy

/-- The labels of a region whose spans are known are marked where the spans begin and end. -/
theorem Region.spans_eq_ok (h : r.spans ops = .ok (a, b)) :
    r.range? ops = some a ∧ position? ops r.handlerStart = some b.1 := by
  obtain ⟨s, hs, h⟩ := bind_eq_ok.mp h
  obtain ⟨t, ht, h⟩ := bind_eq_ok.mp h
  obtain ⟨u, hu, h⟩ := bind_eq_ok.mp h
  obtain ⟨v, -, h⟩ := bind_eq_ok.mp h
  cases h
  dsimp only at hs ht hu
  split at hs <;> cases hs
  split at ht <;> cases ht
  split at hu <;> cases hu
  next hs _ ht _ hu => exact ⟨by simp [range?, hs, ht], hu⟩

/-- Every region of a sequence whose spans are known has a range, which is among them, and a
handler. -/
theorem regionSpans_getElem? {index i : Nat} {rs : List Region}
    (h : regionSpans ops index rs = .ok spans) (hr : rs[i]? = some r) :
    ∃ a target, r.range? ops = some a ∧ position? ops r.handlerStart = some target ∧
      (index + i, a) ∈ spans := by
  induction rs generalizing index i spans with
  | nil => simp at hr
  | cons first rest ih =>
    obtain ⟨⟨a, b⟩, hspans, h⟩ := bind_eq_ok.mp h
    dsimp only at h
    split at h
    · cases h
    · split at h
      · cases h
      · obtain ⟨spans', hrest, h⟩ := bind_eq_ok.mp h
        cases h
        cases i with
        | zero =>
          cases hr
          obtain ⟨ha, hb⟩ := Region.spans_eq_ok hspans
          exact ⟨a, b.1, ha, hb, List.mem_cons_self⟩
        | succ i =>
          obtain ⟨a', target, ha', hb', hmem⟩ := ih hrest hr
          have hindex : index + 1 + i = index + (i + 1) := by omega
          exact ⟨a', target, ha', hb',
            List.mem_cons_of_mem _ (List.mem_cons_of_mem _ (hindex ▸ hmem))⟩

variable {p : Program} {m : Method}

theorem Method.regionSpans_of_valid (h : m.defect? p = none) :
    ∃ spans, regionSpans m.body.ops 0 m.body.regions = .ok spans ∧ spans.Pairwise Apart := by
  rw [Method.defect?] at h
  split at h
  · cases h
  · rw [regionDefect?] at h
    split at h
    · cases h
    · next spans hspans => exact ⟨spans, hspans, pairwise_apart h⟩

/-- Ranges around a position that different regions of a valid method protect lie one in the
other. -/
theorem Body.Protects.contains (h : m.defect? p = none) {pc i j : Nat} (ha : m.body.Protects pc i a)
    (hb : m.body.Protects pc j b) (hne : i ≠ j) : a.contains b = true ∨ b.contains a = true := by
  obtain ⟨spans, hspans, hapart⟩ := Method.regionSpans_of_valid h
  obtain ⟨r, hr, hra, ha⟩ := ha
  obtain ⟨r', hr', hrb, hb⟩ := hb
  obtain ⟨a', -, ha', -, hi⟩ := regionSpans_getElem? hspans hr
  obtain ⟨b', -, hb', -, hj⟩ := regionSpans_getElem? hspans hr'
  cases hra.symm.trans ha'
  cases hrb.symm.trans hb'
  have : Std.Symm Apart := ⟨fun _ _ => Apart.symm⟩
  have hnested := hapart.forall_of_forall (fun _ _ hne => absurd rfl hne) hi hj
  exact ha.contains hb (hnested (by omega))

end Stackify.Code

namespace Stackify.Machine

open List
open Code

/-! ## The handler that is chosen -/

/-- A fold that keeps the later one of two candidates unless it is smaller returns the last one of
the largest. -/
theorem foldl_last_max {inner : Option (Nat × Nat) → Nat × Nat → Option (Nat × Nat)}
    (hnone : ∀ r, inner none r = some r) (hsome : ∀ b r, inner (some b) r = if b.1 ≤ r.1 then
      some r else some b) (rs : List (Nat × Nat)) :
    (rs.foldl inner none = none ∧ rs = []) ∨ ∃ front b back, rs = front ++ b :: back ∧
      rs.foldl inner none = some b ∧ (∀ r ∈ front, r.1 ≤ b.1) ∧ ∀ r ∈ back, r.1 < b.1 := by
  induction rs using List.reverseRecOn with
  | nil => exact .inl ⟨rfl, rfl⟩
  | append_singleton rs r ih =>
    refine .inr ?_
    rw [foldl_concat]
    rcases ih with ⟨h, rfl⟩ | ⟨front, b, back, rfl, h, hfront, hback⟩
    · exact ⟨[], r, [], rfl, by rw [h, hnone], by simp, by simp⟩
    · rw [h, hsome]
      split
      · next hle =>
        refine ⟨_, r, [], rfl, rfl, fun r' hr' => ?_, by simp⟩
        rcases mem_append.mp hr' with hr' | hr'
        · exact Nat.le_trans (hfront r' hr') hle
        · rcases mem_cons.mp hr' with rfl | hr'
          · exact hle
          · exact Nat.le_trans (Nat.le_of_lt (hback r' hr')) hle
      · next hlt =>
        refine ⟨front, b, back ++ [r], by simp, rfl, hfront, fun r' hr' => ?_⟩
        rcases mem_append.mp hr' with hr' | hr'
        · exact hback r' hr'
        · cases mem_singleton.mp hr'
          omega

variable {p : Program} {m : Method}

theorem handler?_eq (m : Method) (pc : Nat) :
    ∃ inner, (∀ r, inner none r = some r) ∧
      (∀ b r, inner (some b) r = if b.1 ≤ r.1 then some r else some b) ∧
      handler? m pc = ((coveringRegions m pc).foldl inner none).map (·.2) := by
  refine ⟨_, ?_, ?_, rfl⟩
  · intro r
    rfl
  · intro b r
    rfl

theorem coveringRegions_eq (m : Method) (pc : Nat) :
    ∃ f, coveringRegions m pc = m.body.regions.filterMap f ∧
      ∀ r start target, f r = some (start, target) ↔
        ∃ stop, r.range? m.body.ops = some (start, stop) ∧ Span.Surrounds (start, stop) pc ∧
          position? m.body.ops r.handlerStart = some target := by
  refine ⟨_, rfl, fun r start target => ?_⟩
  simp only [Region.range?, Span.Surrounds, bind, Option.bind_eq_some_iff, pure, Option.some.injEq,
    Prod.mk.injEq, Option.ite_none_right_eq_some]
  constructor
  · rintro ⟨s, hs, t, ht, u, hu, hpc, rfl, rfl⟩
    exact ⟨t, ⟨s, hs, t, ht, rfl, rfl⟩, hpc, hu⟩
  · rintro ⟨t, ⟨s, hs, t', ht, rfl, rfl⟩, hpc, hu⟩
    exact ⟨s, hs, t', ht, target, hu, hpc, rfl, rfl⟩

/-- The handler of a position belongs to a region whose range starts last, the last one of several
that do. -/
theorem handler?_starts_last
    (hmarked : ∀ r ∈ m.body.regions, ∃ target, position? m.body.ops r.handlerStart = some target)
    (pc : Nat) : (handler? m pc = none ∧ ∀ i a, ¬ m.body.Protects pc i a) ∨
    ∃ i r a, m.body.regions[i]? = some r ∧ r.range? m.body.ops = some a ∧ a.Surrounds pc ∧
      handler? m pc = position? m.body.ops r.handlerStart ∧
      ∀ j b, m.body.Protects pc j b → (j < i → b.1 ≤ a.1) ∧ (i < j → b.1 < a.1) := by
  obtain ⟨f, hf, hcovers⟩ := coveringRegions_eq m pc
  have hprotects {j : Nat} {b : Span} (h : m.body.Protects pc j b) :
      ∃ r target, m.body.regions[j]? = some r ∧ f r = some (b.1, target) := by
    obtain ⟨r, hr, hb, hpc⟩ := h
    obtain ⟨target, ht⟩ := hmarked r (mem_of_getElem? hr)
    exact ⟨r, target, hr, (hcovers _ _ _).mpr ⟨b.2, hb, hpc, ht⟩⟩
  obtain ⟨inner, hnone, hsome, hhandler⟩ := handler?_eq m pc
  rw [hhandler, hf]
  rcases foldl_last_max hnone hsome (m.body.regions.filterMap f) with
    ⟨hfold, hnil⟩ | ⟨front, b, back, hsplit, hfold, hfront, hback⟩
  · refine .inl ⟨by rw [hfold]; rfl, fun j b hb => ?_⟩
    obtain ⟨r, target, hr, hfr⟩ := hprotects hb
    simp [filterMap_eq_nil_iff.mp hnil r (mem_of_getElem? hr)] at hfr
  · obtain ⟨l₁, l, hregions, hl₁, hl⟩ := filterMap_eq_append_iff.mp hsplit
    obtain ⟨l₂, r, l₃, rfl, hl₂, hfr, hl₃⟩ := filterMap_eq_cons_iff.mp hl
    obtain ⟨stop, ha, hpc, htarget⟩ := (hcovers r b.1 b.2).mp hfr
    refine .inr ⟨(l₁ ++ l₂).length, r, (b.1, stop), by simp [hregions], ha,
      hpc, by rw [hfold, htarget]; rfl, ?_⟩
    intro j c hc
    obtain ⟨r', target, hr', hfr'⟩ := hprotects hc
    rw [hregions, ← append_assoc] at hr'
    constructor
    · intro hlt
      rw [getElem?_append_left hlt] at hr'
      rcases mem_append.mp (mem_of_getElem? hr') with h | h
      · exact hfront (c.1, target) (hl₁ ▸ mem_filterMap.mpr ⟨r', h, hfr'⟩)
      · simp [hl₂ r' h] at hfr'
    · intro hlt
      obtain ⟨k, rfl⟩ : ∃ k, j = (l₁ ++ l₂).length + (k + 1) :=
        ⟨j - (l₁ ++ l₂).length - 1, by omega⟩
      rw [getElem?_append_right (by omega)] at hr'
      simp only [Nat.add_sub_cancel_left, getElem?_cons_succ] at hr'
      exact hback (c.1, target) (hl₃ ▸ mem_filterMap.mpr ⟨r', mem_of_getElem? hr', hfr'⟩)

/-- In a valid method an exception has a handler exactly where a protected range is around its
position. It goes to a region whose range lies in every other range around the position, save those
that start at the same place and are listed before it, which may lie in it. -/
theorem handler?_nested (h : m.defect? p = none) (pc : Nat) :
    (handler? m pc = none ↔ ∀ i a, ¬ m.body.Protects pc i a) ∧
    ∀ target, handler? m pc = some target →
      ∃ i r a, m.body.regions[i]? = some r ∧ position? m.body.ops r.handlerStart = some target ∧
        r.range? m.body.ops = some a ∧ a.Surrounds pc ∧
        ∀ j b, m.body.Protects pc j b → b.contains a = true ∨
          (j < i ∧ b.1 = a.1 ∧ a.contains b = true) := by
  obtain ⟨spans, hspans, -⟩ := Method.regionSpans_of_valid h
  have hmarked : ∀ r ∈ m.body.regions, ∃ target, position? m.body.ops r.handlerStart =
      some target := by
    intro r hr
    obtain ⟨i, hi⟩ := getElem?_of_mem hr
    obtain ⟨-, target, -, htarget, -⟩ := regionSpans_getElem? hspans hi
    exact ⟨target, htarget⟩
  rcases handler?_starts_last hmarked pc with ⟨hnone, hall⟩ | ⟨i, r, a, hr, ha, hpc,
    hhandler, hlast⟩
  · exact ⟨iff_of_true hnone hall, fun target ht => absurd (hnone.symm.trans ht) nofun⟩
  · have hi : m.body.Protects pc i a := ⟨r, hr, ha, hpc⟩
    obtain ⟨target', htarget'⟩ := hmarked r (mem_of_getElem? hr)
    have hsome : handler? m pc = some target' := hhandler.trans htarget'
    refine ⟨⟨fun hnone => absurd (hsome.symm.trans hnone) nofun, fun hall => absurd hi (hall i a)⟩,
      fun target ht => ?_⟩
    refine ⟨i, r, a, hr, hhandler.symm.trans ht, ha, hpc, fun j b hb => ?_⟩
    obtain ⟨hbefore, hbehind⟩ := hlast j b hb
    rcases Nat.lt_trichotomy j i with hj | rfl | hj
    · rcases hi.contains h hb (by omega) with hab | hba
      · have hstart : a.1 ≤ b.1 := by simp_all [Span.contains]
        exact .inr ⟨hj, Nat.le_antisymm (hbefore hj) hstart, hab⟩
      · exact .inl hba
    · obtain ⟨r', hr', hb, -⟩ := hb
      cases hr.symm.trans hr'
      cases ha.symm.trans hb
      simp [Span.contains]
    · rcases hi.contains h hb (by omega) with hab | hba
      · have hstart : a.1 ≤ b.1 := by simp_all [Span.contains]
        exact absurd (hbehind hj) (by omega)
      · exact .inl hba

/-- A method that throws at position 2, inside of two ranges which start together; `regions` are
those of the ranges, in either order. -/
def throwing (regions : List Code.Region) : Method :=
  { name := "throwing", symbol := "throwing", visibility := .exported, type :=
      ⟨[], .int .w32, false⟩, paramNames := []
    body :=
      { ops := [.label 0, .loadConst 0, .throw, .label 1, .label 2,
          .label 3, .pop, .loadConst 1, .ret, .label 4,
          .label 5, .pop, .loadConst 2, .ret, .label 6]
        regions, labelCount := 7 } }

def throwingProgram (regions : List Code.Region) : Program :=
  { consts := [.int .w32 0, .int .w32 1, .int .w32 2], methods := [throwing regions] }

def innerRegion : Code.Region := ⟨0, 1, 3, 4⟩

def outerRegion : Code.Region := ⟨0, 2, 5, 6⟩

/-- With the outer region first, the exception goes to the inner handler. -/
theorem throwing_reaches_inner :
    (throwing [outerRegion, innerRegion]).defect?
    (throwingProgram [outerRegion, innerRegion]) = none ∧ handler?
    (throwing [outerRegion, innerRegion]) 2 = some 5 ∧
      ∃ i r a, (throwing [outerRegion, innerRegion]).body.regions[i]? = some r ∧ position?
        (throwing [outerRegion, innerRegion]).body.ops r.handlerStart = some 5 ∧
      r.range? (throwing [outerRegion, innerRegion]).body.ops = some a ∧ a.Surrounds 2 ∧
      ∀ j b, (throwing [outerRegion, innerRegion]).body.Protects 2 j b →
        b.contains a = true ∨ (j < i ∧ b.1 = a.1 ∧ a.contains b = true) := by
  have hvalid : (throwing [outerRegion, innerRegion]).defect?
      (throwingProgram [outerRegion, innerRegion]) = none := by
    decide
  have hhandler : handler? (throwing [outerRegion, innerRegion]) 2 = some 5 := by decide
  exact ⟨hvalid, hhandler, (handler?_nested hvalid 2).2 5 hhandler⟩

/-- With the inner region first the method is valid too, and the exception goes to the outer
handler. -/
theorem throwing_skips_inner :
    (throwing [innerRegion, outerRegion]).defect?
    (throwingProgram [innerRegion, outerRegion]) = none ∧
      (throwing [innerRegion, outerRegion]).body.Protects 2 0 (0, 3) ∧
    (throwing [innerRegion, outerRegion]).body.Protects 2 1 (0, 4) ∧
    position? (throwing [innerRegion, outerRegion]).body.ops innerRegion.handlerStart = some 5 ∧
    handler? (throwing [innerRegion, outerRegion]) 2 = some 10 ∧
    (callMethod (throwingProgram [innerRegion, outerRegion]) 10 (.ofProgram (throwingProgram [])) 0
      []).map (·.2) = some (.ok (some (.int .w32 2))) := by
  refine ⟨by decide, ⟨innerRegion, rfl, by decide, by decide⟩,
    ⟨outerRegion, rfl, by decide, by decide⟩, by decide, by decide, rfl⟩

end Stackify.Machine
