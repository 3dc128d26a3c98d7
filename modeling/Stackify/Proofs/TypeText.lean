import Stackify.Ssa.Text

/-!
The text of a type says which type it is, if the names in it have no characters that delimit texts
of types:

    t.Plain → u.Plain → t.text = u.text → t = u                                  (Ty.text_injective)

A function type begins with its result type and ends with a parenthesis of its own, so texts are
read from the right. What `read` takes off the front of a backward text is the type that was printed
(`readable`): whatever has no brackets goes as far as the next delimiter, and whatever has brackets
says by its first character which ones.
-/

namespace Stackify.Ssa

open List Option

/-! ## Names -/

/-- Whether a character has no part in telling the texts of types from each other. -/
def isPlain (c : Char) : Bool := !" (<[)>]\x7d".toList.contains c

/-- Letters, digits and the punctuation of qualified names are plain. -/
example : "abcdefghijklmnopqrstuvwxyzABCDEFGHIJKLMNOPQRSTUVWXYZ0123456789_.:".toList.all isPlain =
    true := by decide

mutual

/-- The names of aggregates in a type. -/
def Ty.names : Ty → List String
  | .array e _ | .vector e _ => e.names
  | .struct name => [name]
  | .literal fields _ => namesAll fields
  | .function ret params _ => ret.names ++ namesAll params
  | _ => []

def Ty.namesAll : List Ty → List String
  | [] => []
  | t :: ts => t.names ++ namesAll ts

end

/-- All names in a type are plain. -/
def Ty.Plain (t : Ty) : Prop := ∀ name ∈ t.names, name.toList.all isPlain = true

instance (t : Ty) : Decidable t.Plain := inferInstanceAs (Decidable (∀ name ∈ t.names, _))

variable {ts fields params : List Ty} {ret t e : Ty} {stop rest : List Char} {variadic : Bool}
  {c : Char} {o : Option Ty} {n : Nat}

theorem Ty.mem_namesAll {name : String} : name ∈ namesAll ts ↔ ∃ t ∈ ts, name ∈ t.names := by
  induction ts with
  | nil => simp [namesAll]
  | cons t ts ih => simp [namesAll, ih]

theorem Ty.plain_literal {packed : Bool} :
    (Ty.literal fields packed).Plain ↔ ∀ t ∈ fields, t.Plain := by
  constructor
  · exact fun h t ht name hname => h name (mem_namesAll.mpr ⟨t, ht, hname⟩)
  · intro h name hname
    obtain ⟨t, ht, hname⟩ := mem_namesAll.mp hname
    exact h t ht name hname

theorem Ty.plain_function {variadic : Bool} :
    (Ty.function ret params variadic).Plain ↔ ret.Plain ∧ ∀ t ∈ params, t.Plain := by
  have hnames : (Ty.function ret params variadic).names = ret.names ++ Ty.namesAll params := by
    rw [names]
  rw [Plain, hnames, forall_mem_append]
  exact and_congr_right fun _ => @plain_literal params false

/-! ## Reading backward texts -/

/-- Whether a text, read backwards, may follow that of a type: it begins with what separates or
opens. -/
def opens (rest : List Char) : Bool := rest.head?.all " (<".toList.contains

/-- The type without brackets that a text stands for, if it is not the mark for further
parameters. -/
def ofPlain : List Char → Option Ty
  | 'i' :: digits => some (.int (Nat.ofDigitChars 10 digits 0))
  | '%' :: name => some (.struct (String.ofList name))
  | text =>
    [.void, .half, .float, .double, .pointer, .label, .token, .metadata].find? fun t =>
      t.text.toList = text

/-- Goes on behind the type of an element with the number of elements and the bracket. -/
def readLength (make : Ty → Nat → Ty) (x : Option Ty × List Char) : Option Ty × List Char :=
  (x.1.map (make · (Nat.ofDigitChars 10 ((x.2.drop 3).takeWhile isPlain).reverse 0)),
    ((x.2.drop 3).dropWhile isPlain).tail)

def Ty.pack : Ty → Ty
  | .literal fields _ => .literal fields true
  | t => t

mutual

/-- Takes a type, or the mark for further parameters, off the front of a backward text. -/
def read : Nat → List Char → Option Ty × List Char
  | 0, cs => (none, cs)
  | k + 1, cs =>
    match cs.head? with
    | some ']' => readLength .array (read k cs.tail)
    | some '>' =>
      let x := read k cs.tail
      if x.2.head? = some '<' then (x.1.map Ty.pack, x.2.tail) else readLength .vector x
    | some '\x7d' =>
      let x := readAll k (cs.drop 2)
      (some (.literal x.1.reduceOption false), x.2.drop 2)
    | some ')' =>
      let x := readAll k cs.tail
      let y := read k (x.2.drop 2)
      (y.1.map (.function · x.1.reduceOption (x.1.contains none)), y.2)
    | _ => (ofPlain (cs.takeWhile isPlain).reverse, cs.dropWhile isPlain)

/-- Takes a list of them, up to what opens the brackets around it. -/
def readAll : Nat → List Char → List (Option Ty) × List Char
  | 0, cs => ([], cs)
  | k + 1, cs =>
    if opens cs then ([], cs) else
    let x := read k cs
    if x.2.take 2 = [' ', ','] then
      let y := readAll k (x.2.drop 2)
      (y.1 ++ [x.1], y.2)
    else ([x.1], x.2)

end

/-! ## Backward texts -/

-- the equations of the printer, for all proofs about texts of types
attribute [local simp] Ty.text

/-- The backward text of a type, or of the mark for further parameters. -/
def backward (o : Option Ty) : List Char := ((o.map Ty.text).getD "...").toList.reverse

/-- The texts of several things, last to first and each of them backwards, with separators between
them. -/
def joined : List (List Char) → List Char
  | [] => []
  | [x] => x
  | x :: xs => x ++ ' ' :: ',' :: joined xs

theorem joined_cons (x : List Char) (xs : List (List Char)) (stop : List Char) :
    joined (x :: xs) ++ stop = x ++ if xs = [] then
      stop else ' ' :: ',' :: (joined xs ++ stop) := by
  cases xs with
  | nil => rfl
  | cons y xs => simp [joined]

theorem joined_concat {xs : List (List Char)} (hxs : xs ≠ []) (x : List Char) :
    joined (xs ++ [x]) = joined xs ++ ' ' :: ',' :: x := by
  induction xs with
  | nil => exact absurd rfl hxs
  | cons y xs ih =>
    cases xs with
    | nil => rfl
    | cons z xs => simpa [joined] using ih (cons_ne_nil _ _)

theorem reverse_intercalate (texts : List String) :
    (", ".intercalate texts).toList.reverse = joined (texts.map (·.toList.reverse)).reverse := by
  induction texts with
  | nil => rfl
  | cons x texts ih =>
    cases texts with
    | nil => simp [joined]
    | cons y texts =>
      rw [String.intercalate_cons_cons, String.toList_append, String.toList_append, reverse_append,
        reverse_append, ih, map_cons (f := _) (a := x), reverse_cons,
        joined_concat (by simp)]
      rfl

theorem textAll_eq_map (ts : List Ty) : Ty.textAll ts = ts.map Ty.text := by
  induction ts with
  | nil => rfl
  | cons t ts ih => rw [Ty.textAll, ih, map_cons]

/-- Parameters of a function type; the last one may stand for any number of others. -/
def entries (params : List Ty) (variadic : Bool) : List (Option Ty) :=
  params.map some ++ if variadic then [none] else []

/-- A list of entries, backwards. -/
theorem reverse_entries (ts : List Ty) (variadic : Bool) :
    (", ".intercalate (Ty.textAll ts ++ if variadic then ["..."] else [])).toList.reverse =
      joined ((entries ts variadic).reverse.map backward) := by
  rw [reverse_intercalate, textAll_eq_map, map_reverse]
  congr 2
  cases variadic <;> simp [entries, backward]

section
variable (e : Ty) (n : Nat) (fields : List Ty) (ret : Ty) (params : List Ty) (variadic : Bool)

theorem backward_array : backward (some (.array e n)) =
    ']' :: (backward (some e) ++ ' ' :: 'x' :: ' ' :: ((toString n).toList.reverse ++ ['['])) := by
  simp [backward]

theorem backward_vector : backward (some (.vector e n)) =
    '>' :: (backward (some e) ++ ' ' :: 'x' :: ' ' :: ((toString n).toList.reverse ++ ['<'])) := by
  simp [backward]

theorem backward_literal : backward (some (.literal fields false)) =
    '\x7d' :: ' ' :: (joined ((entries fields false).reverse.map backward) ++ [' ', '\x7b']) := by
  rw [← reverse_entries]
  simp [backward]

theorem backward_packed : backward (some (.literal fields true)) =
    '>' :: (backward (some (.literal fields false)) ++ ['<']) := by
  simp [backward]

theorem backward_function : backward (some (.function ret params variadic)) =
    ')' :: (joined ((entries params variadic).reverse.map backward) ++ '(' :: ' ' ::
      backward (some ret)) := by
  rw [← reverse_entries]
  simp [backward]

end

/-! ## Reading them back -/

/-- What is read is what was printed, whatever follows. -/
def Readable (o : Option Ty) : Prop :=
  (∀ more, opens (backward o ++ more) = false) ∧
    ∃ k, ∀ j ≥ k, ∀ rest, opens rest = true → read j (backward o ++ rest) = (o, rest)

/-- With a step for the brackets, texts of types are read behind closing ones. -/
theorem readable_of_closer {more : List Char} {k : Nat} (htext : backward o = c :: more)
    (hc : opens [c] = false) (h : ∀ j ≥ k, ∀ rest, opens rest = true →
      read (j + 1) (c :: (more ++ rest)) = (o, rest)) : Readable o := by
  refine ⟨fun _ => by rw [htext]; exact hc, k + 1, fun j hj rest hrest => ?_⟩
  obtain ⟨j, rfl⟩ := Nat.exists_eq_add_of_le' (Nat.le_of_add_left_le hj)
  rw [htext]
  exact h j (by omega) rest hrest

/-- What is plain goes as far as the next character that is not. -/
theorem span_plain {xs : List Char} (hxs : ∀ c ∈ xs, isPlain c = true)
    (hrest : ∀ c ∈ rest.head?, isPlain c = false) :
    (xs ++ rest).takeWhile isPlain = xs ∧ (xs ++ rest).dropWhile isPlain = rest := by
  rw [takeWhile_append_of_pos hxs, dropWhile_append_of_pos hxs]
  cases rest with
  | nil => simp
  | cons c rest => simp [hrest c rfl]

theorem not_plain_of_opens (h : opens rest = true) (c : Char) (hc : c ∈ rest.head?) :
    isPlain c = false := by
  rw [opens, Option.mem_def.mp hc] at h
  have hc : c = ' ' ∨ c = '(' ∨ c = '<' := by simpa using h
  rcases hc with rfl | rfl | rfl <;> decide

theorem readable_of_plain (hne : backward o ≠ []) (hplain : ∀ c ∈ backward o, isPlain c = true)
    (ho : ofPlain (backward o).reverse = o) : Readable o := by
  obtain ⟨c, more, hcons⟩ := exists_cons_of_ne_nil hne
  have hc : isPlain c = true := hplain c (by simp [hcons])
  refine ⟨fun rest => ?_, 1, fun j hj rest hrest => ?_⟩
  · rw [← Bool.not_eq_true]
    intro h
    have hnot := not_plain_of_opens h c (by simp [hcons])
    simp [hc] at hnot
  · obtain ⟨j, rfl⟩ := Nat.exists_eq_add_of_le' hj
    obtain ⟨htake, hdrop⟩ := span_plain hplain (not_plain_of_opens hrest)
    rw [read]
    split
    case h_5 => rw [htake, hdrop, ho]
    all_goals
      next h =>
      simp only [hcons, cons_append, head?_cons, Option.some.injEq] at h
      subst h
      cases hc

theorem isPlain_of_mem_toString (n : Nat) : ∀ c ∈ (toString n).toList, isPlain c = true := by
  intro c hc
  rw [Nat.toString_eq_ofList_toDigits, String.toList_ofList] at hc
  have hdigit := Nat.isDigit_of_mem_toDigits (by decide) (by decide) hc
  have hnone : (" (<[)>]\x7d".toList.all fun c => !c.isDigit) = true := by decide
  simp only [isPlain, Bool.not_eq_true', contains_eq_mem, decide_eq_false_iff_not]
  intro hmem
  simpa [hdigit] using List.all_eq_true.mp hnone c hmem

theorem readable_int (bits : Nat) : Readable (some (.int bits)) := by
  have htext : backward (some (.int bits)) = (toString bits).toList.reverse ++ ['i'] := by
    simp [backward]
  refine readable_of_plain (by simp [htext]) ?_ (by simp [htext, ofPlain])
  rw [htext]
  exact forall_mem_append.mpr ⟨fun c hc => isPlain_of_mem_toString bits c (mem_reverse.mp hc),
    forall_mem_singleton.mpr (by decide)⟩

theorem readable_struct {name : String} (h : (Ty.struct name).Plain) :
    Readable (some (.struct name)) := by
  have htext : backward (some (.struct name)) = name.toList.reverse ++ ['%'] := by simp [backward]
  refine readable_of_plain (by simp [htext]) ?_ (by simp [htext, ofPlain])
  have hname := List.all_eq_true.mp (h name (by simp [Ty.names]))
  rw [htext]
  exact forall_mem_append.mpr ⟨fun c hc => hname c (mem_reverse.mp hc),
    forall_mem_singleton.mpr (by decide)⟩

theorem readLength_eq (make : Ty → Nat → Ty) (hc : isPlain c = false) :
    readLength make (some e, ' ' :: 'x' :: ' ' :: ((toString n).toList.reverse ++ c :: rest)) =
      (some (make e n), rest) := by
  have hstop : ∀ d ∈ (c :: rest).head?, isPlain d = false := by
    rintro _ ⟨⟩
    exact hc
  obtain ⟨htake, hdrop⟩ :=
    span_plain (fun d hd => isPlain_of_mem_toString n d (mem_reverse.mp hd)) hstop
  simp only [readLength, drop_succ_cons, drop_zero, htake, hdrop]
  simp

theorem readable_array (n : Nat) (he : Readable (some e)) : Readable (some (.array e n)) := by
  obtain ⟨-, k, hk⟩ := he
  refine readable_of_closer (k := k) (backward_array e n) rfl fun j hj rest hrest => ?_
  rw [read]
  simp only [head?_cons, tail_cons, append_assoc, cons_append, nil_append]
  rw [hk j hj _ rfl, readLength_eq .array (by decide)]

/-- A vector may hold aggregates, and then ends like a packed aggregate; but it does not begin like
one. -/
theorem readable_vector (n : Nat) (he : Readable (some e)) : Readable (some (.vector e n)) := by
  obtain ⟨-, k, hk⟩ := he
  refine readable_of_closer (k := k) (backward_vector e n) rfl fun j hj rest hrest => ?_
  rw [read]
  simp only [head?_cons, tail_cons, append_assoc, cons_append, nil_append]
  rw [hk j hj _ rfl, if_neg (by simp), readLength_eq .vector (by decide)]

theorem readable_packed (hbraces : Readable (some (.literal fields false))) :
    Readable (some (.literal fields true)) := by
  obtain ⟨-, k, hk⟩ := hbraces
  refine readable_of_closer (k := k) (backward_packed fields) rfl fun j hj rest hrest => ?_
  rw [read]
  simp only [head?_cons, tail_cons, append_assoc, cons_append, nil_append]
  rw [hk j hj _ rfl]
  rfl

/-- So are lists, up to what ends them. -/
theorem readAll_joined {os : List (Option Ty)} (hos : ∀ o ∈ os, Readable o)
    (hstop : stop = ['('] ∨ stop = [' ', '\x7b']) :
    ∃ k, ∀ j ≥ k, ∀ rest, readAll j (joined (os.map backward) ++ (stop ++ rest)) = (os.reverse,
      stop ++ rest) := by
  have hopens (rest : List Char) : opens (stop ++ rest) = true := by
    rcases hstop with rfl | rfl <;> rfl
  -- What ends the list is not the beginning of what separates its elements.
  have hends (rest : List Char) : (stop ++ rest).take 2 ≠ [' ', ','] := by
    rcases hstop with rfl | rfl <;> simp
  induction os with
  | nil =>
    refine ⟨1, fun j hj rest => ?_⟩
    obtain ⟨j, rfl⟩ := Nat.exists_eq_add_of_le' hj
    rw [map_nil, joined, nil_append, readAll, if_pos (hopens rest)]
    rfl
  | cons o os ih =>
    obtain ⟨⟨hfirst, k, hk⟩, hos⟩ := forall_mem_cons.mp hos
    obtain ⟨k', hk'⟩ := ih hos
    refine ⟨k + k' + 1, fun j hj rest => ?_⟩
    obtain ⟨j, rfl⟩ := Nat.exists_eq_add_of_le' (Nat.le_of_add_left_le hj)
    rw [map_cons, joined_cons, readAll, if_neg (by simp [hfirst])]
    cases os with
    | nil =>
      rw [map_nil, if_pos rfl, hk j (by omega) _ (hopens rest)]
      exact if_neg (hends rest)
    | cons o' os =>
      rw [map_cons, if_neg (cons_ne_nil _ _), ← map_cons, hk j (by omega) _ rfl]
      simp only [take_succ_cons, take_zero, drop_succ_cons, drop_zero, if_pos,
        hk' j (by omega) rest, reverse_cons (a := o)]

theorem readable_entries (hts : ∀ t ∈ ts, Readable (some t)) (variadic : Bool) :
    ∀ o ∈ (entries ts variadic).reverse, Readable o := by
  intro o ho
  rcases mem_append.mp (mem_reverse.mp ho) with ho | ho
  · obtain ⟨t, ht, rfl⟩ := List.mem_map.mp ho
    exact hts t ht
  · cases variadic
    · cases ho
    · cases mem_singleton.mp ho
      exact readable_of_plain (by decide) (List.all_eq_true.mp (by decide)) (by decide)

theorem reduceOption_entries : (entries ts variadic).reduceOption = ts := by
  delta reduceOption
  cases variadic <;> simp [entries]

theorem contains_entries : (entries ts variadic).contains none = variadic := by
    cases variadic <;> simp [entries]

theorem readable_braces (hfields : ∀ t ∈ fields, Readable (some t)) :
    Readable (some (.literal fields false)) := by
  obtain ⟨k, hk⟩ := readAll_joined (readable_entries hfields false) (.inr rfl)
  refine readable_of_closer (k := k) (backward_literal fields) rfl fun j hj rest hrest => ?_
  have hall := hk j hj rest
  rw [reverse_reverse] at hall
  rw [read]
  simp only [head?_cons, append_assoc, cons_append, nil_append] at hall ⊢
  simp only [hall, drop_succ_cons, drop_zero, reduceOption_entries]

theorem readable_function (variadic : Bool) (hret : Readable (some ret))
    (hparams : ∀ t ∈ params, Readable (some t)) :
    Readable (some (.function ret params variadic)) := by
  obtain ⟨k, hk⟩ := readAll_joined (readable_entries hparams variadic) (.inl rfl)
  obtain ⟨-, k', hk'⟩ := hret
  refine readable_of_closer (k := k + k') (backward_function ret params variadic) rfl
    fun j hj rest hrest => ?_
  have hall := hk j (by omega) (' ' :: (backward (some ret) ++ rest))
  rw [reverse_reverse] at hall
  rw [read]
  simp only [head?_cons, tail_cons, append_assoc, cons_append, nil_append] at hall ⊢
  simp only [hall, drop_succ_cons, drop_zero, hk' j (by omega) rest hrest, reduceOption_entries,
    contains_entries, Option.map_some]

mutual

/-- A type with plain names is read back from its text. -/
theorem readable (t : Ty) (ht : t.Plain) : Readable (some t) := by
  match t with
  | .array e n => exact readable_array n (readable e ht)
  | .vector e n => exact readable_vector n (readable e ht)
  | .literal fields packed =>
    have hbraces := readable_braces (readableAll fields (Ty.plain_literal.mp ht))
    cases packed with
    | false => exact hbraces
    | true => exact readable_packed hbraces
  | .function ret params variadic =>
    obtain ⟨hret, hparams⟩ := Ty.plain_function.mp ht
    exact readable_function variadic (readable ret hret) (readableAll params hparams)
  | .int bits => exact readable_int bits
  | .struct name => exact readable_struct ht
  | .void | .label | .token | .metadata | .half | .float | .double | .pointer =>
    exact readable_of_plain (by decide) (List.all_eq_true.mp (by decide)) (by decide)

theorem readableAll (ts : List Ty) (hts : ∀ t ∈ ts, t.Plain) : ∀ t ∈ ts, Readable (some t) := by
  match ts with
  | [] => exact forall_mem_nil _
  | t :: ts =>
    rw [forall_mem_cons] at hts
    exact forall_mem_cons.mpr ⟨readable t hts.1, readableAll ts hts.2⟩

end

theorem Ty.text_injective {u : Ty} (ht : t.Plain) (hu : u.Plain) (h : t.text = u.text) : t = u := by
  obtain ⟨-, k, hk⟩ := readable t ht
  obtain ⟨-, k', hk'⟩ := readable u hu
  have hback : backward (some t) = backward (some u) := congrArg (·.toList.reverse) h
  have hread := hk (k + k') (by omega) [] rfl
  rw [hback, hk' (k + k') (by omega) [] rfl] at hread
  exact (some.inj (Prod.mk.inj hread).1).symm

/-- The text of an aggregate without a name is no plain name. -/
theorem Ty.text_literal_not_plain (fields : List Ty) (packed : Bool) :
    (Ty.literal fields packed).text.toList.all isPlain = false := by
  refine List.all_eq_false.mpr ⟨' ', ?_, by decide⟩
  cases packed <;> simp

end Stackify.Ssa
