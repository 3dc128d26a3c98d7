import Stackify.Proofs.LocalStorage

/-!
Strings that are printed from a local and from memory.

In memory a string goes from an address up to a zero. In a local it is found by the path to it, and
a last step into an array is taken for a position in that array. For a whole array and for an
element that is the string which memory has there; a row of a larger array, which is both, is
printed as nothing (`putString_twins`).
-/

namespace Stackify.Machine

open Code (Ty Program Record)
open List

/-- The octets from an offset up to a zero. -/
def Block.stringAt (b : Block) (o : Nat) : List UInt8 := (b.octets.drop o).takeWhile (· ≠ 0)

/-- What is printed for octets. -/
def printed (octets : List UInt8) : String :=
  String.ofList (Text.ofOctets (octets.map (·.toNat))) ++ "\n"

/-- How many octets of an array there are from a part on, where the part is an array of octets or an
element of one. -/
def octetsFrom? : Ty → Option (Nat × Nat) → Option Nat
  | .array (.int .w8) n, _ => some n
  | .int .w8, some (i, n) => some (n - i)
  | _, _ => none

theorem unitsOfOctets_one (octets : List UInt8) :
    State.unitsOfOctets 1 octets = (octets.takeWhile (· ≠ 0)).map (·.toNat) := by
  induction octets with
  | nil =>
    rw [State.unitsOfOctets]
    rfl
  | cons x octets ih =>
    have hcode : Number.ofOctets [x] = x.toNat := rfl
    rw [State.unitsOfOctets, if_neg (by simp)]
    simp only [take_succ_cons, take_zero, drop_succ_cons, drop_zero, hcode, ih]
    by_cases hx : x = 0
    · simp [hx]
    · have hne : x.toNat ≠ 0 := fun h => hx (UInt8.toNat_inj.mp h)
      simp [hx, hne]

/-- An octet as an element of a local array. -/
def octetValue (x : UInt8) : Value := .ofInt .w8 (Number.ofOctets [x])

variable {p : Program} {s t : State} {frame index o n k i : Nat} {region : Region} {T ty : Ty}
  {v w : Value} {ws : List Value} {path : List PathStep} {records : List Record} {b : Block}

/-- Elements that are octets are read up to a zero, if there is one among them. -/
theorem unitsOfItems_one {octets : List UInt8} (h : ∀ (i : Nat) w, ws[i]? = some w →
    ∃ x, octets[i]? = some x ∧ w = octetValue x) (hk :
    k < ws.length) (hzero :
    octets[k]? = some 0) : State.unitsOfItems 1 ws = (octets.takeWhile (· ≠ 0)).map (·.toNat) := by
  induction ws generalizing octets k with
  | nil => cases hk
  | cons w ws ih =>
    obtain ⟨x, hx, rfl⟩ := h 0 w rfl
    obtain ⟨octets, rfl⟩ := head?_eq_some_iff.mp (head?_eq_getElem? ▸ hx)
    have hitem : (octetValue x).toInt? = some ((x.toNat : Int).bmod 256) := rfl
    have hmod : (x.toNat : Int).bmod 256 % 256 = x.toNat := by
      have := x.toNat_lt
      have := Int.bmod_emod (x := (x.toNat : Int)) (m := 256)
      omega
    rw [State.unitsOfItems, hitem]
    by_cases hx : x = 0
    · simp [hx]
    · have hne : (x.toNat : Int).bmod 256 ≠ 0 :=
        fun h0 => hx (UInt8.toNat_inj.mp (by simpa [h0] using hmod.symm))
      have hpow : ((Number.pow2 (8 * 1) : Nat) : Int) = 256 := rfl
      obtain ⟨k, rfl⟩ : ∃ k', k = k' + 1 := by
        refine Nat.exists_eq_succ_of_ne_zero ?_
        rintro rfl
        exact hx (Option.some.inj hzero)
      simp [hx, hne, hpow, hmod,
        ih (fun i w hw => h (i + 1) w hw) (Nat.lt_of_succ_lt_succ hk) hzero]

theorem load_octet (h : b.load records (.int .w8) o = .ok w) :
    ∃ x, b.octets[o]? = some x ∧ w = octetValue x := by
  obtain ⟨bs, hread, rfl⟩ := map_eq_ok.mp h
  obtain ⟨hsize, rfl⟩ := Block.read_eq_ok.mp hread
  have hlt : o < b.octets.length := hsize
  refine ⟨b.octets[o], getElem?_eq_getElem hlt, ?_⟩
  rw [drop_eq_getElem_cons hlt]
  rfl

/-- The elements of an array from one of them on are the string that memory has there, if the array
holds its end. -/
theorem unitsOfItems_drop (h : b.load records (.array (.int .w8) n) o = .ok (.array ws))
    (hk : k < n - i) (hzero : b.octets[o + i + k]? = some 0) :
    State.unitsOfItems 1 (ws.drop i) = (b.stringAt (o + i)).map (·.toNat) := by
  obtain ⟨vs, hitems, heq⟩ := (Consists.array (.array (.scalar rfl))).load_eq_ok.mp h
  cases heq
  have hlen : n = ws.length := by simpa using hitems.length_eq
  have hsize (j : Nat) : o + j * (Ty.int .w8).sizeIn records = o + j :=
    congrArg (o + ·) (Nat.mul_one j)
  refine unitsOfItems_one (k := k) (fun j w hw => ?_) (by rw [length_drop, ← hlen]; exact hk)
    (by rw [getElem?_drop, hzero])
  rw [getElem?_drop] at hw ⊢
  rw [Nat.add_assoc, ← hsize]
  obtain ⟨a, ha, hload⟩ := forall₂_some_right hitems hw
  cases (Consists.element_getElem? (hlen ▸ lt_of_getElem? hw)).symm.trans ha
  exact load_octet hload

theorem putString_of_units {address : Value} {octets : List UInt8}
    (h : s.readString address 1 = .ok (octets.map (·.toNat))) :
    serve p s .putString [address] = (s.write (printed octets), .ok (some (.int .w32 0))) := by
  simp [serve, argument, h, bind, Except.bind, Served.pure, printed, pure, Except.pure]

theorem readString_memory (h : t.world.memory.block region = .ok b) :
    t.readString (.pointer (.ofMemory region o)) 1 = .ok ((b.stringAt o).map (·.toNat)) := by
  simp only [State.readString, h, Except.map, unitsOfOctets_one, Block.stringAt]

/-- What is no element is read as the array that it is. -/
theorem readString_whole (hs : HasLocal p s frame index T v)
    (hloc : Located records T path ty none o) (hw : v.follow path = .ok (.array ws)) :
    s.readString (.pointer (.ofLocal frame index path)) 1 = .ok (State.unitsOfItems 1 ws) := by
  cases hloc with
  | whole => simp [State.readString, hs.local?, bind, Except.bind, hw, pure, Except.pure]
  | field => simp [State.readString, hs.local?, bind, Except.bind, hw, pure, Except.pure]

/-- What ends with a step into an array is read from there on in it. -/
theorem readString_element (hs : HasLocal p s frame index T v)
    (hw : v.follow path = .ok (.array ws)) :
    s.readString (.pointer (.ofLocal frame index (path ++ [.element i]))) 1 =
      .ok (State.unitsOfItems 1 (ws.drop i)) := by
  have hpos : ¬ ((i : Int) < 0) := by omega
  simp [State.readString, hs.local?, bind, Except.bind, hw, pure, Except.pure, hpos]

/-- A string in a local is printed as the one that a block with the same object has at the place of
the part, unless the part is a row of a larger array: then an empty line is printed. -/
theorem putString_twins {p : Program} {T ty : Ty} {leaf : Ty → Bool} {d frame index o n k : Nat}
    {region : Region} {s t : State} {v : Value} {b : Block} {path : List PathStep}
    {a : Option (Nat × Nat)} (hT : T.Nests p.records leaf d)
    (h : Twins p T frame index region s t v b) (hloc : Located p.records T path ty a o)
    (hn : octetsFrom? ty a = some n) (hk : k < n) (hzero : b.octets[o + k]? = some 0) :
    serve p t .putString [.pointer (.ofMemory region o)] = (t.write (printed (b.stringAt o)),
      .ok (some (.int .w32 0))) ∧ serve p s .putString [.pointer (.ofLocal frame index path)] =
        (s.write (printed (if a.isSome ∧ ty ≠ .int .w8 then [] else b.stringAt o)),
          .ok (some (.int .w32 0))) := by
  refine ⟨putString_of_units (readString_memory h.block), putString_of_units ?_⟩
  cases a with
  | none =>
    obtain rfl : ty = .array (.int .w8) n := by
      unfold octetsFrom? at hn
      split at hn <;> simp_all
    obtain ⟨w, hfollow, hload⟩ := hloc.follow hT h.load
    obtain ⟨ws, -, rfl⟩ := (Consists.array (hloc.nests hT).grounded).load_eq_ok.mp hload
    rw [readString_whole h.value hloc hfollow, if_neg (by simp)]
    exact congrArg _ (unitsOfItems_drop (i := 0) hload hk hzero)
  | some e =>
    cases hloc with
    | @element path _ m a o i hparent hi =>
      obtain ⟨w, hfollow, hload⟩ := hparent.follow hT h.load
      obtain ⟨ws, hrows, rfl⟩ := (Consists.array (hparent.nests hT).grounded).load_eq_ok.mp hload
      rw [readString_element h.value hfollow]
      unfold octetsFrom? at hn
      split at hn
      · -- The row itself stands first among the elements that are read, and is no unit.
        obtain ⟨w, hw, hrow⟩ := forall₂_some_left hrows (Consists.element_getElem? hi)
        obtain ⟨row, -, rfl⟩ :=
          (Consists.array (hparent.nests hT).element.grounded).load_eq_ok.mp hrow
        obtain ⟨hlt, hget⟩ := List.getElem?_eq_some_iff.mp hw
        rw [drop_eq_getElem_cons hlt, hget, if_pos (by simp)]
        rfl
      · next hsome =>
        cases hsome
        cases hn
        rw [if_neg (by simp)]
        have hsize : i * (Ty.int .w8).sizeIn p.records = i := Nat.mul_one i
        rw [hsize] at hzero ⊢
        exact congrArg _ (unitsOfItems_drop hload hk hzero)
      · cases hn

/-- A method with a local of two rows of octets. -/
def lines : Program where
  methods :=
    [⟨"main", "main", .exported, ⟨[], .void, false⟩, [],
      { locals := [.array (.array (.int .w8) 4) 2], ops := [.ret] }⟩]

/-- The words "a" and "hi" in such rows. -/
def linesBlock : Block := ⟨[97, 0, 0, 0, 104, 105, 0, 0], []⟩

/-- The method with these words in its local, and with the same rows on the heap. -/
def linesState : State where
  current :=
    { method := 0, args := [], locals :=
        [.array ([[97, 0, 0, 0], [104, 105, 0, 0]].map (.array <| ·.map octetValue))] }
  world := { memory := { heap := [some linesBlock] } }

/-- The second row from its second element on. -/
theorem lines_putString :
    serve lines linesState .putString [.pointer (.ofMemory (.heap 0) 5)] = (linesState.write "i\n",
      .ok (some (.int .w32 0))) ∧ serve lines linesState .putString [.pointer
        (.ofLocal 0 0 [.element 1, .element 1])] = (linesState.write "i\n",
          .ok (some (.int .w32 0))) := by
  have htwins : Twins lines (.array (.array (.int .w8) 4) 2) 0 0 (.heap 0) linesState linesState _
      linesBlock :=
    ⟨⟨rfl, rfl⟩, rfl, rfl, rfl⟩
  have hloc : Located lines.records (.array (.array (.int .w8) 4) 2) [.element 1, .element 1]
      (.int .w8) (some (1, 4)) 5 :=
    .element (.element .whole (by decide : 1 < 2)) (by decide : 1 < 4)
  have hT : (Ty.array (.array (.int .w8) 4) 2).Nests lines.records (fun _ => true) 0 :=
    .array (.array (.scalar rfl rfl))
  have h := putString_twins hT htwins hloc rfl (by decide : 1 < 3) rfl
  have hprinted : printed (linesBlock.stringAt 5) = "i\n" := by decide +kernel
  rwa [if_neg (by simp), hprinted] at h

/-- The second row as a whole: from memory its word is printed, from the local nothing. -/
theorem row_printed_as_nothing :
    serve lines linesState .putString [.pointer (.ofMemory (.heap 0) 4)] = (linesState.write "hi\n",
      .ok (some (.int .w32 0))) ∧ serve lines linesState .putString [.pointer
        (.ofLocal 0 0 [.element 1])] = (linesState.write "\n", .ok (some (.int .w32 0))) := by
  have hword : printed (linesBlock.stringAt 4) = "hi\n" := by decide +kernel
  have hnothing : printed [] = "\n" := by decide +kernel
  rw [← hword, ← hnothing]
  exact ⟨putString_of_units (readString_memory rfl), putString_of_units rfl⟩

end Stackify.Machine
