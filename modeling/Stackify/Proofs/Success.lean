import Mathlib.Data.List.Forall2

/-!
When computations that may fail succeed: a sequence does if its parts do, and a map over a list if
it does on every element. Lists whose elements correspond to each other correspond at every
position.
-/

namespace Stackify

open List Option

variable {ε α β : Type} {x : Except ε α} {f : α → Except ε β} {b : β} {σ : Type} {s s' : σ} {a : α}
  {as : List α} {bs : List β} {p : α → Option β} {F : α → β}

theorem bind_eq_ok : (x >>= f) = .ok b ↔ ∃ a, x = .ok a ∧ f a = .ok b := by
  cases x with
  | ok a => exact ⟨fun h => ⟨a, rfl, h⟩, by rintro ⟨_, h, hf⟩; cases h; exact hf⟩
  | error e => simp [bind, Except.bind]

/-- The same for computations with a state. -/
theorem run_bind_eq_ok {x : EStateM ε σ α} {f : α → EStateM ε σ β} {s'' : σ} :
    (x >>= f) s = .ok b s'' ↔ ∃ a s', x s = .ok a s' ∧ f a s' = .ok b s'' := by
  change EStateM.bind x f s = .ok b s'' ↔ _
  unfold EStateM.bind
  cases x s with
  | ok a s' => exact ⟨fun h => ⟨a, s', rfl, h⟩, by rintro ⟨_, _, h, hf⟩; cases h; exact hf⟩
  | error e s' => simp

theorem run_bind_of_ok {x : EStateM ε σ α} {f : α → EStateM ε σ β} (h : x s = .ok a s') :
    (x >>= f) s = f a s' := by
  change EStateM.bind x f s = _
  rw [EStateM.bind, h]

theorem run_bind_of_error {x : EStateM ε σ α} {f : α → EStateM ε σ β} {e : ε}
    (h : x s = .error e s') : (x >>= f) s = .error e s' := by
  change EStateM.bind x f s = _
  rw [EStateM.bind, h]

theorem run_get_bind {f : σ → EStateM ε σ β} : (get >>= f) s = f s s := rfl

theorem map_eq_ok {f : α → β} : x.map f = .ok b ↔ ∃ a, x = .ok a ∧ f a = b := by
  cases x <;> simp [Except.map]

theorem pure_eq_ok {b : α} : (pure a : Except ε α) = .ok b ↔ a = b := by
  simp [pure, Except.pure]

theorem mapM_eq_ok : as.mapM f = .ok bs ↔ Forall₂ (fun a b => f a = .ok b) as bs := by
  induction as generalizing bs with
  | nil => rw [mapM_nil, pure_eq_ok, forall₂_nil_left_iff, eq_comm]
  | cons a as ih =>
    rw [mapM_cons, bind_eq_ok]
    simp only [bind_eq_ok, pure_eq_ok, ih, forall₂_cons_left_iff]
    grind

theorem forall₂_of_mapM (h : as.mapM p = some bs) :
    Forall₂ (fun a b => p a = some b) as bs := by
  induction as generalizing bs with
  | nil =>
    cases h
    exact .nil
  | cons a as ih =>
    rw [mapM_cons] at h
    obtain ⟨b, hb, h⟩ := bind_eq_some_iff.mp h
    obtain ⟨bs', hbs, h⟩ := bind_eq_some_iff.mp h
    cases h
    exact .cons hb (ih hbs)

theorem mapM_eq_some_of_imp {q : α → Option β} (h : ∀ a b, p a = some b → q a = some b)
    (has : as.mapM p = some bs) : as.mapM q = some bs := by
  induction as generalizing bs with
  | nil => exact has
  | cons a as ih =>
    rw [mapM_cons] at has ⊢
    obtain ⟨b, hb, has⟩ := bind_eq_some_iff.mp has
    obtain ⟨bs', hbs, has⟩ := bind_eq_some_iff.mp has
    rw [h a b hb, ih hbs]
    exact has

theorem mapM_congr {g : α → Except ε β} (h : ∀ a ∈ as, f a = g a) : as.mapM f = as.mapM g := by
  induction as with
  | nil => rfl
  | cons a as ih =>
    rw [mapM_cons, mapM_cons, h a mem_cons_self, ih fun a ha => h a (mem_cons_of_mem _ ha)]

theorem toOption_eq_some : x.toOption = some a ↔ x = .ok a := by
  cases x <;> simp [Except.toOption]

theorem toOption_map_eq_some : x.toOption.map F = some b ↔ ∃ a, x = .ok a ∧ F a = b := by
  cases x <;> simp [Except.toOption]

theorem lt_of_getElem? {i : Nat} (h : as[i]? = some a) : i < as.length :=
  (List.getElem?_eq_some_iff.mp h).1

/-! ## Corresponding elements -/

variable {R : α → β → Prop} {i : Nat} {γ : Type}

section
variable (h : Forall₂ R as bs)
include h

theorem forall₂_some_left (ha : as[i]? = some a) : ∃ b, bs[i]? = some b ∧ R a b := by
  obtain ⟨hi, rfl⟩ := List.getElem?_eq_some_iff.mp ha
  have hi' : i < bs.length := h.length_eq ▸ hi
  exact ⟨bs[i], getElem?_eq_getElem hi', h.get hi hi'⟩

theorem forall₂_some_right (hb : bs[i]? = some b) : ∃ a, as[i]? = some a ∧ R a b := by
  obtain ⟨hi, rfl⟩ := List.getElem?_eq_some_iff.mp hb
  have hi' : i < as.length := h.length_eq ▸ hi
  exact ⟨as[i], getElem?_eq_getElem hi', h.get hi' hi⟩

theorem forall₂_set_right (ha : as[i]? = some a) (hb : R a b) : Forall₂ R as (bs.set i b) := by
  induction h generalizing i with
  | nil => exact .nil
  | cons hab h ih =>
    cases i with
    | zero =>
      cases ha
      exact .cons hb h
    | succ i => exact .cons hab (ih ha)

theorem forall₂_map_eq {F : α → γ} {G : β → γ} (hR : ∀ a b, R a b → G b = F a) :
    bs.map G = as.map F := by
  induction h with
  | nil => rfl
  | cons hab _ ih => rw [map_cons, map_cons, hR _ _ hab, ih]

theorem forall₂_mapM_eq_ok {f : α → Except ε γ} {g : β → Except ε γ}
    (hR : ∀ a b c, R a b → f a = .ok c → g b = .ok c) {cs : List γ} (hcs : as.mapM f = .ok cs) :
    bs.mapM g = .ok cs := by
  rw [mapM_eq_ok] at hcs ⊢
  induction h generalizing cs with
  | nil => exact forall₂_nil_left_iff.mpr (forall₂_nil_left_iff.mp hcs)
  | cons hab _ ih =>
    obtain ⟨c, cs, hc, hrest, rfl⟩ := forall₂_cons_left_iff.mp hcs
    exact .cons (hR _ _ c hab hc) (ih hrest)

theorem forall₂_none_left (ha : as[i]? = none) : bs[i]? = none := by
  rw [List.getElem?_eq_none_iff] at ha ⊢
  exact h.length_eq ▸ ha

end

theorem map_eq_map_iff_forall₂ {F : α → γ} {G : β → γ} :
    as.map F = bs.map G ↔ Forall₂ (fun a b => F a = G b) as bs := by
  rw [← forall₂_eq_eq_eq, forall₂_map_left_iff, forall₂_map_right_iff]

theorem map_eq_map_of_some {as' : List α} (hlen : as'.length = as.length)
    (h : ∀ (i : Nat) (a' : α), as'[i]? = some a' → ∃ a, as[i]? = some a ∧ F a' = F a) :
    as'.map F = as.map F := by
  refine ext_getElem? fun i => ?_
  rw [getElem?_map, getElem?_map]
  cases hi : as'[i]? with
  | none =>
    rw [List.getElem?_eq_none_iff, hlen, ← List.getElem?_eq_none_iff] at hi
    rw [hi]
  | some a' =>
    obtain ⟨a, ha, hF⟩ := h i a' hi
    rw [ha, map_some, map_some, hF]

end Stackify
