import Stackify.Proofs.Success
import Stackify.Flow.Graph

/-!
Names are looked up as the last position that carries them, and so are labels in code. Where no name
occurs twice, that is the only position (`lastIndex?_eq_some_of_unique`).
-/

namespace Stackify.Flow

open List

variable {α β : Type} {c : α → Bool} {l : List α} {i j : Nat} {a : α} {f : β → α}
  {nodes : List Node} {blocks : List Block} {id : NodeId}

theorem lastIndexFrom_eq_none : lastIndexFrom c i l = none ↔ ∀ a ∈ l, c a = false := by
  induction l generalizing i with
  | nil => simp [lastIndexFrom]
  | cons a l ih =>
    rw [lastIndexFrom]
    cases h : lastIndexFrom c (i + 1) l with
    | none => simpa using fun _ => ih.mp h
    | some j =>
      have : ¬ ∀ b ∈ l, c b = false := fun h' => by rw [ih.mpr h'] at h; cases h
      simp_all

theorem lastIndexFrom_eq_some (h : lastIndexFrom c i l = some j) :
    ∃ k a, j = i + k ∧ l[k]? = some a ∧ c a = true ∧ ∀ k' b, k < k' → l[k']? = some b →
      c b = false := by
  induction l generalizing i with
  | nil => cases h
  | cons a l ih =>
    rw [lastIndexFrom] at h
    cases hl : lastIndexFrom c (i + 1) l with
    | some j' =>
      rw [hl] at h
      cases h
      obtain ⟨k, b, rfl, hk, hb, hlast⟩ := ih hl
      refine ⟨k + 1, b, by omega, hk, hb, fun k' b' hk' hb' => ?_⟩
      obtain ⟨k', rfl⟩ : ∃ m, k' = m + 1 := ⟨k' - 1, by omega⟩
      exact hlast k' b' (by omega) hb'
    | none =>
      simp only [hl] at h
      split at h
      · next ha =>
        cases h
        refine ⟨0, a, rfl, rfl, ha, fun k' b' hk' hb' => ?_⟩
        obtain ⟨k', rfl⟩ : ∃ m, k' = m + 1 := ⟨k' - 1, by omega⟩
        exact lastIndexFrom_eq_none.mp hl b' (mem_of_getElem? hb')
      · cases h

theorem lastIndex?_eq_none : lastIndex? c l = none ↔ ∀ a ∈ l, c a = false := lastIndexFrom_eq_none

theorem lastIndex?_eq_some (h : lastIndex? c l = some i) :
    ∃ a, l[i]? = some a ∧ c a = true ∧ ∀ k b, i < k → l[k]? = some b → c b = false := by
  obtain ⟨k, a, rfl, hk, ha, hlast⟩ := lastIndexFrom_eq_some h
  rw [Nat.zero_add]
  exact ⟨a, hk, ha, hlast⟩

/-- The only position that satisfies a condition is the last one. -/
theorem lastIndex?_eq_some_of_unique (hi : l[i]? = some a) (ha : c a = true)
    (h : ∀ k b, l[k]? = some b → c b = true → k = i) : lastIndex? c l = some i := by
  cases hl : lastIndex? c l with
  | none => rw [lastIndex?_eq_none.mp hl a (mem_of_getElem? hi)] at ha; cases ha
  | some j =>
    obtain ⟨b, hj, hb, -⟩ := lastIndex?_eq_some hl
    rw [h j b hj hb]

/-- The only element with a key is the last one with it. -/
theorem lastIndex?_of_nodup [DecidableEq β] {key : α → β} (h : (l.map key).Nodup)
    (hi : l[i]? = some a) : lastIndex? (fun b => key b = key a) l = some i := by
  refine lastIndex?_eq_some_of_unique hi (decide_eq_true rfl) fun k b hb hk => ?_
  have hkeys : (l.map key)[k]? = (l.map key)[i]? := by
    rw [getElem?_map, getElem?_map, hb, hi, Option.map_some, Option.map_some, of_decide_eq_true hk]
  exact (getElem?_inj (by simpa using (lt_of_getElem? hb)) h).mp hkeys

theorem lastIndexFrom_map {l : List β} :
    lastIndexFrom c i (l.map f) = lastIndexFrom (fun b => c (f b)) i l := by
  induction l generalizing i with
  | nil => rfl
  | cons b l ih => rw [map_cons, lastIndexFrom, lastIndexFrom, ih]

theorem lastIndex?_map {l : List β} : lastIndex? c (l.map f) = lastIndex? (fun b => c (f b)) l :=
  lastIndexFrom_map

theorem lastIndexFrom_append_of_false (ha : c a = false) :
    lastIndexFrom c i (l ++ [a]) = lastIndexFrom c i l := by
  induction l generalizing i with
  | nil => simp [lastIndexFrom, ha]
  | cons b l ih => rw [cons_append, lastIndexFrom, ih, lastIndexFrom]

theorem lastIndex?_append_of_false (ha : c a = false) : lastIndex? c (l ++ [a]) = lastIndex? c l :=
  lastIndexFrom_append_of_false ha

/-! ## Nodes and blocks -/

theorem resolve?_congr {nodes' : List Node} (h : nodes'.map (·.key) = nodes.map (·.key)) (r : Ref) :
    resolve? nodes' r = resolve? nodes r := by
  have (k : Key) : nodeFor? nodes' k = nodeFor? nodes k := by
    have hmap (l : List Node) : nodeFor? l k = lastIndex? (fun k' => k' = k) (l.map (·.key)) := by
      rw [lastIndex?_map]; rfl
    rw [hmap, hmap, h]
  cases r with
  | key k => exact this k
  | _ => rfl

theorem blockIndex?_congr {blocks' : List Block} (h : blocks'.map (·.id) = blocks.map (·.id))
    (id : Ssa.BlockId) : blockIndex? blocks' id = blockIndex? blocks id := by
  have hmap (l : List Block) : blockIndex? l id = lastIndex? (fun i => i = id) (l.map (·.id)) := by
    rw [lastIndex?_map]; rfl
  rw [hmap, hmap, h]

theorem resolve?_eq_some {r : Ref} (h : resolve? nodes r = some id) :
    ∃ k n, r = .key k ∧ nodes[id]? = some n ∧ n.key = k := by
  obtain ⟨k, hk, h⟩ := Option.bind_eq_some_iff.mp h
  obtain ⟨n, hn, hnk, -⟩ := lastIndex?_eq_some h
  cases r with
  | key k' =>
    cases hk
    exact ⟨k, n, rfl, hn, of_decide_eq_true hnk⟩
  | _ => cases hk

/-- Where no two nodes have the same key, a key leads to the node that has it. -/
theorem resolve?_key (hkeys : (nodes.map (·.key)).Nodup) {n : Node} (hn : nodes[id]? = some n) :
    resolve? nodes (.key n.key) = some id :=
  lastIndex?_of_nodup hkeys hn

/-- Where no two blocks have the same number, a number leads to the block that has it. -/
theorem blockIndex?_eq_some_iff (hids : (blocks.map (·.id)).Nodup) {id : Ssa.BlockId} :
    blockIndex? blocks id = some i ↔ ∃ b, blocks[i]? = some b ∧ b.id = id := by
  constructor
  · intro h
    obtain ⟨b, hb, hid, -⟩ := lastIndex?_eq_some h
    exact ⟨b, hb, of_decide_eq_true hid⟩
  · rintro ⟨b, hb, rfl⟩
    exact lastIndex?_of_nodup hids hb

end Stackify.Flow
