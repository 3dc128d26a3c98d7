import Stackify.Name.Signature
import Mathlib.Data.List.Infix

/-!
Signatures that are written out and read back.

A signature is decorations, a return type, further decorations and a qualified name, with single
spaces between them, and then the argument list (`render`). Reading it gives the parts back
(`parse?_render`).

Each scan of the reader counts open angle brackets, and what it looks for must stand outside all of
them. So a scan passes over a text whose brackets match without a find, if nothing outside them is
one (`headFrom_append`, `lastOutside_append`).
-/

namespace Stackify.Name

open Text (isBlank)
open List Option

/-! ## Texts with matching brackets -/

/-- A text without quotes whose angle brackets match, if `depth` of them are open before it, and
where every character outside of them satisfies `p`. -/
def isBalanced (p : Char → Bool) (depth : Nat) : List Char → Bool
  | [] => depth = 0
  | c :: cs =>
    if c = '<' then isBalanced p (depth + 1) cs
    else if c = '>' then 0 < depth && isBalanced p (depth - 1) cs
    else c ≠ openQuote && c ≠ closeQuote && (0 < depth || p c) && isBalanced p depth cs

section
variable {p q : Char → Bool} {d : Nat} {cs ds : List Char}

theorem isBalanced_append (hc : isBalanced p d cs) (hd : isBalanced p 0 ds) :
    isBalanced p d (cs ++ ds) := by
  fun_induction isBalanced p d cs <;> simp_all [isBalanced]

theorem isBalanced_mono (hpq : ∀ c, p c → q c) (h : isBalanced p d cs) : isBalanced q d cs := by
  fun_induction isBalanced p d cs with
  | case4 d c cs hopen hclose ih =>
    simp only [Bool.and_eq_true, Bool.or_eq_true] at h
    simp only [isBalanced, hopen, hclose, if_false, Bool.and_eq_true, Bool.or_eq_true]
    exact ⟨⟨h.1.1, h.1.2.imp_right (hpq c)⟩, ih h.2⟩
  | _ => simp_all [isBalanced]

theorem isBalanced_intercalate {sep : List Char} {texts : List (List Char)}
    (hsep : isBalanced p 0 sep) (htexts : ∀ t ∈ texts, isBalanced p 0 t) :
    isBalanced p 0 (sep.intercalate texts) := by
  induction texts with
  | nil => rfl
  | cons t texts ih =>
    obtain ⟨ht, htexts⟩ := forall_mem_cons.mp htexts
    by_cases hnil : texts = []
    · rwa [hnil, intercalate_singleton]
    · rw [intercalate_cons_of_ne_nil hnil]
      exact isBalanced_append (isBalanced_append ht hsep) (ih htexts)

/-- A text starts outside brackets or with the one that opens them. -/
theorem isBalanced_head? (h : isBalanced p 0 cs) {c : Char} (hc : cs.head? = some c) :
    c = '<' ∨ p c := by
  obtain ⟨cs, rfl⟩ := head?_eq_some_iff.mp hc
  by_cases hopen : c = '<'
  · exact .inl hopen
  · right
    rw [isBalanced, if_neg hopen] at h
    split at h <;> simp_all

/-- A text ends outside brackets or with the one that closes them. -/
theorem isBalanced_getLast? (h : isBalanced p d cs) {c : Char} (hc : cs.getLast? = some c) :
    c = '>' ∨ p c ∧ c ≠ closeQuote := by
  fun_induction isBalanced p d cs with
  | case1 => simp at hc
  | case2 d cs ih => cases cs <;> simp_all [isBalanced]
  | case3 d cs hopen ih =>
    cases cs with
    | nil => exact .inl (some.inj hc).symm
    | cons b cs => simp_all
  | case4 d a cs hopen hclose ih => cases cs <;> simp_all [isBalanced]

/-! ## Scans -/

theorem headFrom_append (h : isBalanced p d cs) (hp : ∀ c, p c → c ≠ '(')
    (before rest : List Char) :
    headFrom before d false (cs ++ rest) = headFrom (cs.reverse ++ before) 0 false rest := by
  fun_induction isBalanced p d cs generalizing before with
  | case1 d => simp_all
  | case2 d cs ih =>
    rw [cons_append, headFrom, if_neg (by decide), if_neg (by decide), if_neg Bool.false_ne_true,
      if_pos rfl, reverse_cons, append_assoc]
    exact ih h _
  | case3 d cs hopen ih =>
    simp only [Bool.and_eq_true, decide_eq_true_eq] at h
    have hd : (d : Int) - 1 = (d - 1 : Nat) := by omega
    rw [cons_append, headFrom, if_neg (by decide), if_neg (by decide), if_neg Bool.false_ne_true,
      if_neg hopen, if_pos rfl, hd, reverse_cons, append_assoc]
    exact ih h.2 _
  | case4 d c cs hopen hclose ih =>
    simp only [Bool.and_eq_true, Bool.or_eq_true, decide_eq_true_eq] at h
    obtain ⟨⟨⟨hfirst, hlast⟩, hc⟩, h⟩ := h
    have hgo : ¬(c = '(' ∧ (d : Int) = 0) := by
      rintro ⟨rfl, hd⟩
      rcases hc with hc | hc
      · omega
      · exact hp _ hc rfl
    rw [cons_append, headFrom, if_neg hfirst, if_neg hlast, if_neg Bool.false_ne_true, if_neg hopen,
      if_neg hclose, if_neg, reverse_cons, append_assoc]
    · exact ih h _
    · simp only [Bool.and_eq_true, decide_eq_true_eq]
      exact fun hall => hgo hall.1

variable {stop : Char → Bool} {hit : Char → List Char → Bool} (hstop : ∀ c, stop c → c = openQuote)
include hstop

theorem lastOutside_append (h : isBalanced p d cs) (rest : List Char) (at' : Nat)
    (found : Option Nat) :
    ∃ found', lastOutside stop hit d at' found (cs ++ rest) = lastOutside stop hit 0
      (at' + cs.length) found' rest ∧ ((∀ c r, p c → ¬hit c r) → found' = found) := by
  fun_induction isBalanced p d cs generalizing at' found with
  | case1 d =>
    have hd : d = 0 := by simpa using h
    exact ⟨found, by simp [hd], fun _ => rfl⟩
  | case2 d cs ih =>
    obtain ⟨found', heq, hfound⟩ := ih h (at' + 1) found
    refine ⟨found', ?_, hfound⟩
    rw [cons_append, lastOutside, if_pos rfl, length_cons, Nat.add_comm cs.length, ← Nat.add_assoc]
    exact heq
  | case3 d cs hopen ih =>
    simp only [Bool.and_eq_true, decide_eq_true_eq] at h
    obtain ⟨found', heq, hfound⟩ := ih h.2 (at' + 1) found
    refine ⟨found', ?_, hfound⟩
    have hd : (d : Int) - 1 = (d - 1 : Nat) := by omega
    rw [cons_append, lastOutside, if_neg hopen, if_pos rfl, length_cons, Nat.add_comm cs.length,
      ← Nat.add_assoc, hd]
    exact heq
  | case4 d c cs hopen hclose ih =>
    simp only [Bool.and_eq_true, Bool.or_eq_true, decide_eq_true_eq] at h
    obtain ⟨⟨⟨hfirst, -⟩, hc⟩, h⟩ := h
    obtain ⟨found', heq, hfound⟩ :=
      ih h (at' + 1) (if (d : Int) = 0 && hit c (cs ++ rest) then some at' else found)
    refine ⟨found', ?_, fun hhit => (hfound hhit).trans (if_neg ?_)⟩
    · rw [cons_append, lastOutside, if_neg hopen, if_neg hclose, if_neg fun hs =>
        hfirst (hstop c hs), length_cons, Nat.add_comm cs.length, ← Nat.add_assoc]
      exact heq
    · simp only [Bool.and_eq_true, decide_eq_true_eq, not_and]
      intro hd
      exact hhit _ _ (hc.resolve_left (by omega))

theorem lastOutside_eq_found (h : isBalanced p 0 cs) (hhit : ∀ c r, p c → ¬hit c r) (at' : Nat)
    (found : Option Nat) : lastOutside stop hit 0 at' found cs = found := by
  obtain ⟨found', heq, hfound⟩ := lastOutside_append hstop h [] at' found
  rw [append_nil] at heq
  exact heq.trans (hfound hhit)

/-- The first find behind a text, where what follows holds no other. -/
theorem lastOutside_eq_some (h : isBalanced p 0 cs) {c : Char}
    (hc : c ≠ '<' ∧ c ≠ '>' ∧ c ≠ openQuote) (hhit : hit c ds)
    (hds : lastOutside stop hit 0 (cs.length + 1) (some cs.length) ds = some cs.length) :
    lastOutside stop hit 0 0 none (cs ++ c :: ds) = some cs.length := by
  obtain ⟨found, heq, -⟩ := lastOutside_append hstop h (c :: ds) 0 none
  rw [Nat.zero_add, lastOutside, if_neg hc.1, if_neg hc.2.1, if_neg fun hs => hc.2.2 (hstop c hs),
    if_pos (by simpa using hhit), hds] at heq
  exact heq

end

/-! ## Words -/

/-- Every run of blanks becomes one space; `isBehind` says whether a blank stands before the
text. -/
def squeezeFrom (isBehind : Bool) : List Char → List Char
  | [] => []
  | c :: cs =>
    if isBlank c then if isBehind then squeezeFrom true cs else ' ' :: squeezeFrom true cs
    else c :: squeezeFrom false cs

def squeeze (text : String) : String := .ofList (squeezeFrom false text.toList)

theorem flatMap_wordsFrom {word cs : List Char} (hne : word ≠ [] ∨ cs ≠ [])
    (hlast : ∀ c, cs.getLast? = some c → ¬isBlank c) :
    (Text.wordsFrom word cs).flatMap (' ' :: ·) = ' ' :: word.reverse ++
      squeezeFrom word.isEmpty cs := by
  fun_induction Text.wordsFrom word cs with
  | case1 word hword => simp_all
  | case2 word hword => simp_all [squeezeFrom]
  | case3 word c cs hc hword ih =>
    have hcs : cs ≠ [] := by
      rintro rfl
      exact hlast c rfl hc
    rw [ih (.inr hcs) fun a ha => hlast a (by rw [getLast?_cons, ha]; rfl)]
    simp [squeezeFrom, hc, List.isEmpty_iff.mp hword]
  | case4 word c cs hc hword ih =>
    have hcs : cs ≠ [] := by
      rintro rfl
      exact hlast c rfl hc
    rw [flatMap_cons, ih (.inr hcs) fun a ha => hlast a (by rw [getLast?_cons, ha]; rfl)]
    simp [squeezeFrom, hc, hword]
  | case5 word c cs hc ih =>
    rw [ih (.inl (cons_ne_nil _ _)) fun a ha => hlast a (by rw [getLast?_cons, ha]; rfl)]
    simp [squeezeFrom, hc]

theorem intercalate_eq_tail (texts : List (List Char)) :
    [' '].intercalate texts = (texts.flatMap (' ' :: ·)).tail := by
  induction texts with
  | nil => rfl
  | cons t texts ih =>
    cases texts with
    | nil => simp
    | cons u texts =>
      rw [intercalate_cons_cons, ih]
      simp

theorem wordsFrom_append (word cs : List Char) {c : Char} (hc : isBlank c) (ds : List Char) :
    Text.wordsFrom word (cs ++ c :: ds) = Text.wordsFrom word cs ++ Text.words ds := by
  fun_induction Text.wordsFrom word cs <;> simp_all [Text.wordsFrom, Text.words]

theorem words_intercalate (texts : List String) :
    Text.words ((" ".intercalate texts).toList ++ [' ']) = texts.flatMap (Text.words ·.toList) := by
  have happend : ∀ cs ds, Text.words (cs ++ ' ' :: ds) = Text.words cs ++ Text.words ds :=
    fun cs ds => wordsFrom_append [] cs (by decide) ds
  induction texts with
  | nil => rfl
  | cons t texts ih =>
    cases texts with
    | nil =>
      rw [String.intercalate_singleton, happend]
      simp [Text.words, Text.wordsFrom]
    | cons u texts =>
      rw [String.intercalate_cons_cons, flatMap_cons, ← ih, ← happend]
      simp

theorem words_decoration : ∀ w ∈ decorations, (Text.words w.toList).map String.ofList = [w] := by
    decide

/-! ## Signatures -/

/-- A segment of a qualified name. -/
def isSegment (text : String) : Bool :=
  text ≠ "" && isBalanced (fun c => !isBlank c && c ≠ '(' && c ≠ ':') 0 text.toList

/-- Words with blanks between them, none of which is a decoration. -/
def isReturnType (text : String) : Bool :=
  text.toList.head?.any (!isBlank ·) && text.toList.getLast?.any (!isBlank ·) && isBalanced
    (· ≠ '(') 0 text.toList && (Text.words text.toList).all fun w => String.ofList w ∉ decorations

/-- A signature up to its argument list, which may go on with any text. -/
def render (before : List String) (returnType : Option String) (after segments : List String)
    (arguments : String) : String :=
  " ".intercalate (before ++ returnType.toList ++ after ++ ["::".intercalate segments]) ++
    "(" ++ arguments

section
variable {name : List Char} (hname : isBalanced (fun c => !isBlank c && c ≠ '(') 0 name)
  (hne : name ≠ [])
include hname hne

theorem trimRight_append (text : List Char) : Text.trimRight (text ++ name) = text ++ name := by
  have hlast := getLast?_eq_some_getLast hne
  have hblank : ¬isBlank (name.getLast hne) := by
    rcases isBalanced_getLast? hname hlast with hc | ⟨hc, -⟩
    · rw [hc]
      decide
    · simp_all
  rw [← dropLast_append_getLast hne]
  simp [Text.trimRight, hblank]

theorem trim_eq : Text.trim name = name := by
  have hblank : ¬isBlank (name.head hne) := by
    rcases isBalanced_head? hname (head?_eq_some_head hne) with hc | hc
    · rw [hc]
      decide
    · simp_all
  have hleft : Text.trimLeft name = name := by
    rw [Text.trimLeft, ← cons_head_tail hne, dropWhile_cons_of_neg hblank]
  rw [Text.trim, hleft]
  exact trimRight_append hname hne []

/-- The name starts where the text before it ends. -/
theorem nameStart?_append {text : List Char} (htext : text = [] ∨ ∃ cs, text = cs ++ [' '] ∧
    isBalanced (· ≠ '(') 0 cs) : nameStart? (text ++ name) = some text.length := by
  have hlast : (text ++ name).getLast? ≠ some closeQuote := by
    have hname' := getLast?_eq_some_getLast hne
    rw [getLast?_append, hname', some_or]
    intro heq
    rcases isBalanced_getLast? hname hname' with hc | ⟨-, hc⟩
    · rw [hc] at heq
      exact absurd heq (by decide)
    · exact hc (some.inj heq)
  have hspace : ∀ (c : Char) (_ : List Char), (!isBlank c && decide (c ≠ '(')) = true →
      ¬decide (c = ' ') = true := by
    intro c _ hc heq
    rw [of_decide_eq_true heq] at hc
    exact absurd hc (by decide)
  rw [nameStart?, if_neg hlast, lastSpace?]
  rcases htext with rfl | ⟨cs, rfl, hcs⟩
  · rw [nil_append, lastOutside_eq_found (by simp) hname hspace]
    rfl
  · rw [append_assoc, singleton_append, lastOutside_eq_some (by simp) hcs (by decide) (by decide)]
    · simp
    · exact lastOutside_eq_found (by simp) hname hspace _ _

end

/-- The last segment of a name is what stands behind the last separator. -/
theorem splitScope?_append {last scope : List Char}
    (hlast : isBalanced (fun c => !isBlank c && c ≠ '(' && c ≠ ':') 0 last)
    (hscope : isBalanced (· ≠ '(') 0 scope) :
    splitScope? last = none ∧ splitScope? (scope ++ "::".toList ++ last) = some (scope, last) := by
  have hstop : ∀ c, decide (c = openQuote) = true → c = openQuote := fun c => of_decide_eq_true
  have hcolon : ∀ (c : Char) (r : List Char),
      (!isBlank c && decide (c ≠ '(') && decide (c ≠ ':')) = true →
        ¬(decide (c = ':') && decide (r.head? = some ':')) = true := by
    simp +contextual
  have hnone : ∀ at' found, lastOutside (· = openQuote) (fun c r => c = ':' && r.head? = some ':') 0
      at' found last = found :=
    lastOutside_eq_found hstop hlast hcolon
  have hhead : last.head? ≠ some ':' := by
    intro heq
    rcases isBalanced_head? hlast heq with hc | hc <;> simp at hc
  constructor
  · rw [splitScope?, lastSeparator?, hnone]
    rfl
  · have hsome : lastSeparator? (scope ++ ':' :: ':' :: last) = some scope.length := by
      refine lastOutside_eq_some hstop hscope (by decide) rfl ?_
      rw [lastOutside, if_neg (by decide), if_neg (by decide), if_neg (by decide),
        if_neg (by simpa using hhead), hnone]
    have htext : scope ++ "::".toList ++ last = scope ++ ':' :: ':' :: last := by simp
    rw [htext, splitScope?, hsome, map_some, take_left, drop_append]
    simp

/-- What is joined to other texts stands last, behind a separator. -/
theorem intercalate_snoc (sep : String) (texts : List String) (last : String) :
    sep.intercalate (texts ++ [last]) = if texts = [] then last else sep.intercalate texts ++
      sep ++ last := by
  split
  · next hnil => rw [hnil, nil_append, String.intercalate_singleton]
  · next hne =>
    rw [String.intercalate_append_of_ne_nil hne (cons_ne_nil _ _), String.intercalate_singleton]

/-- A word does not reach over a character that it has not. -/
theorem suffix_of_suffix_append {word text last : List Char} (htext : ∀ c ∈ text.getLast?, c ∉ word)
    (h : word <:+ text ++ last) : word <:+ last := by
  by_cases hnil : text = []
  · rwa [hnil] at h
  · have hc := htext _ (getLast?_eq_some_getLast hnil)
    rw [← dropLast_append_getLast hnil, append_assoc, singleton_append] at h
    rcases suffix_or_suffix_of_suffix h (suffix_append text.dropLast (text.getLast hnil ::
      last)) with h | h
    · rcases suffix_cons_iff.mp h with rfl | h
      · exact absurd mem_cons_self hc
      · exact h
    · exact absurd (h.subset mem_cons_self) hc

theorem head?_append {head : List Char} (h : isBalanced (· ≠ '(') 0 head)
    (hoperator : ¬"operator".toList <:+ head) (rest : List Char) :
    head? (head ++ '(' :: rest) = some head := by
  have hpre : ("operator".toList.reverse.isPrefixOf head.reverse) = false := by
    rw [Bool.eq_false_iff]
    intro hpre
    exact hoperator (List.reverse_prefix.mp (List.isPrefixOf_iff_prefix.mp hpre))
  rw [head?]
  refine (headFrom_append h (fun c => of_decide_eq_true) [] ('(' :: rest)).trans ?_
  rw [append_nil, headFrom, if_neg (by decide), if_neg (by decide), if_neg (by decide),
    if_neg (by decide), if_neg (by decide), if_pos (by rw [hpre]; rfl), reverse_reverse]

theorem intercalate_words {text : String} (h : isReturnType text) :
    (Text.words text.toList).map String.ofList ≠ [] ∧
      " ".intercalate ((Text.words text.toList).map String.ofList) = squeeze text := by
  simp only [isReturnType, Bool.and_eq_true, Option.any_eq_true] at h
  obtain ⟨⟨⟨⟨c, hc, hfirst⟩, ⟨a, ha, hlast⟩⟩, -⟩, -⟩ := h
  obtain ⟨cs, htext⟩ := head?_eq_some_iff.mp hc
  have hall : (Text.words text.toList).flatMap (' ' :: ·) = ' ' :: squeezeFrom true text.toList :=
    flatMap_wordsFrom (.inr (by simp [htext])) fun b hb => by simp_all
  have hsqueeze : squeezeFrom true text.toList = squeezeFrom false text.toList := by
    simp_all [squeezeFrom]
  constructor
  · intro hnil
    rw [map_eq_nil_iff.mp hnil] at hall
    cases hall
  · rw [← String.toList_inj, String.toList_intercalate, List.map_map]
    have hid : String.toList ∘ String.ofList = id := funext fun _ => String.toList_ofList
    rw [hid, List.map_id]
    refine (intercalate_eq_tail _).trans ?_
    rw [hall, squeeze, String.toList_ofList, tail_cons, hsqueeze]

section
variable {before after : List String} {returnType : Option String}
  (hbefore : ∀ w ∈ before, w ∈ decorations) (hafter : ∀ w ∈ after, w ∈ decorations)
  (hreturn : ∀ t ∈ returnType, isReturnType t)
include hbefore hafter hreturn

/-- What stands before the name has no parenthesis that could start the argument list. -/
theorem isBalanced_before :
    isBalanced (· ≠ '(') 0 (" ".intercalate (before ++ returnType.toList ++ after)).toList := by
  have hdecoration : ∀ w ∈ decorations, isBalanced (· ≠ '(') 0 w.toList := by decide
  rw [String.toList_intercalate]
  refine isBalanced_intercalate (by decide) fun t ht => ?_
  obtain ⟨t, hmem, rfl⟩ := List.mem_map.mp ht
  rcases mem_append.mp hmem with ht | ht
  · rcases mem_append.mp ht with ht | ht
    · exact hdecoration t (hbefore t ht)
    · have := hreturn t (mem_toList.mp ht)
      simp only [isReturnType, Bool.and_eq_true] at this
      exact this.1.2
  · exact hdecoration t (hafter t ht)

theorem returnType?_before :
    returnType? ((" ".intercalate (before ++ returnType.toList ++ after)).toList ++ [' ']) =
      returnType.map squeeze := by
  -- Decorations are words of their own and are dropped; the words of the return type all stay.
  have hdropped : ∀ ws : List String, (∀ w ∈ ws, w ∈ decorations) →
      (((ws.flatMap (Text.words ·.toList)).map String.ofList).filter fun w =>
        !decorations.contains w) = [] := by
    intro ws hws
    have hone : (ws.flatMap (Text.words ·.toList)).map String.ofList = ws := by
      rw [map_flatMap]
      refine (flatMap_congr fun w hw => words_decoration w (hws w hw)).trans ?_
      simp
    rw [hone, filter_eq_nil_iff]
    simpa using hws
  rw [returnType?, words_intercalate]
  simp only [flatMap_append, map_append, filter_append]
  rw [hdropped before hbefore, hdropped after hafter, nil_append, append_nil]
  cases returnType with
  | none => rfl
  | some t =>
    obtain ⟨hne, hwords⟩ := intercalate_words (hreturn t rfl)
    have hkept : (((Text.words t.toList).map String.ofList).filter fun w =>
        !decorations.contains w) = (Text.words t.toList).map String.ofList := by
      have := hreturn t rfl
      simp only [isReturnType, Bool.and_eq_true] at this
      rw [filter_eq_self]
      simpa using this.2
    simp only [toList_some, flatMap_singleton]
    rw [hkept, hwords, if_neg (by simpa using hne)]
    rfl

/-- The text before the name: nothing, or words and a space. -/
theorem exists_before (name : String) : ∃ text,
    (" ".intercalate (before ++ returnType.toList ++ after ++ [name])).toList = text ++
      name.toList ∧ (text = [] ∨ ∃ cs, text = cs ++ [' '] ∧ isBalanced (· ≠ '(') 0 cs) ∧
        returnType? text = returnType.map squeeze := by
  rw [intercalate_snoc]
  by_cases hnil : before ++ returnType.toList ++ after = []
  · have hnone : returnType = none := by
      simp only [append_eq_nil_iff, toList_eq_nil_iff] at hnil
      exact hnil.1.2
    rw [if_pos hnil, hnone]
    exact ⟨[], rfl, .inl rfl, rfl⟩
  · rw [if_neg hnil]
    refine ⟨_ ++ [' '], ?_, .inr ⟨_, rfl, isBalanced_before hbefore hafter hreturn⟩,
      returnType?_before hbefore hafter hreturn⟩
    simp

end

section
variable {owners : List String} {last : String} (hsegments : ∀ s ∈ owners ++ [last], isSegment s)
include hsegments

theorem isBalanced_name {segments : List String} (hmem : segments ⊆ owners ++ [last]) :
    isBalanced (fun c => !isBlank c && c ≠ '(') 0 ("::".intercalate segments).toList := by
  rw [String.toList_intercalate]
  refine isBalanced_intercalate (by decide) fun t ht => ?_
  obtain ⟨s, hs, rfl⟩ := List.mem_map.mp ht
  have hsegment := hsegments s (hmem hs)
  rw [isSegment, Bool.and_eq_true] at hsegment
  exact isBalanced_mono (fun c hc => (Bool.and_eq_true _ _ ▸ hc).1) hsegment.2

theorem name_ne_nil : ("::".intercalate (owners ++ [last])).toList ≠ [] := by
  have hlast : last ≠ "" := by
    have := hsegments last (by simp)
    simp_all [isSegment]
  rw [intercalate_snoc]
  split <;> simp [hlast]

theorem splitScope?_name : splitScope? ("::".intercalate (owners ++ [last])).toList =
    if owners = [] then none else some (("::".intercalate owners).toList, last.toList) := by
  have hlast := hsegments last (by simp)
  rw [isSegment, Bool.and_eq_true] at hlast
  have howners := isBalanced_name hsegments (subset_append_left owners [last])
  obtain ⟨hone, hmany⟩ :=
    splitScope?_append hlast.2 (isBalanced_mono (fun c hc => (Bool.and_eq_true _ _ ▸ hc).2) howners)
  rw [intercalate_snoc]
  split
  · exact hone
  · rw [String.toList_append, String.toList_append]
    exact hmany

end

/-- A signature that is written out is read back: the return type with single spaces between its
words, the scopes, the function and the qualified name. -/
theorem parse?_render {before after owners : List String} {returnType : Option String}
    {last : String} (hbefore : ∀ w ∈ before, w ∈ decorations)
    (hafter : ∀ w ∈ after, w ∈ decorations) (hreturn : ∀ t ∈ returnType, isReturnType t)
    (hsegments : ∀ s ∈ owners ++ [last], isSegment s)
    (hoperator : ¬"operator".toList <:+ last.toList) (arguments : String) :
    Signature.parse? (render before returnType after (owners ++ [last]) arguments) =
      some {
        returnType := returnType.map squeeze
        typeName := if owners = [] then none else some ("::".intercalate owners)
        functionName := last
        identifier := "::".intercalate (owners ++ [last]) } := by
  have hname := isBalanced_name hsegments (Subset.refl _)
  have hne := name_ne_nil hsegments
  have hsplit := splitScope?_name hsegments
  obtain ⟨text, hhead, htext, hreturnType⟩ :=
    exists_before hbefore hafter hreturn ("::".intercalate (owners ++ [last]))
  have hsuffix : ¬"operator".toList <:+ text ++ ("::".intercalate (owners ++ [last])).toList := by
    intro h
    have h : "operator".toList <:+ ("::".intercalate (owners ++ [last])).toList := by
      refine suffix_of_suffix_append ?_ h
      rcases htext with rfl | ⟨cs, rfl, -⟩ <;> simp
    rw [intercalate_snoc] at h
    split at h
    · exact hoperator h
    · rw [String.toList_append] at h
      exact hoperator (suffix_of_suffix_append (by simp) h)
  have hbalanced : isBalanced (· ≠ '(') 0
      (text ++ ("::".intercalate (owners ++ [last])).toList) := by
    refine isBalanced_append ?_ (isBalanced_mono (fun c hc => (Bool.and_eq_true _ _ ▸ hc).2) hname)
    rcases htext with rfl | ⟨cs, rfl, hcs⟩
    · rfl
    · exact isBalanced_append hcs (by decide)
  have hrender : (render before returnType after (owners ++ [last]) arguments).toList =
      text ++ ("::".intercalate (owners ++ [last])).toList ++ '(' :: arguments.toList := by
    rw [render, String.toList_append, String.toList_append, hhead]
    simp
  rw [Signature.parse?, hrender, head?_append hbalanced hsuffix]
  simp only [bind_eq_bind, bind_some]
  rw [trimRight_append hname hne, nameStart?_append hname hne htext, bind_some, drop_left,
    take_left, trim_eq hname hne, if_neg (by simpa using hne), hsplit, hreturnType]
  by_cases hnil : owners = []
  · simp [hnil]
  · simp only [if_neg hnil, String.ofList_toList]

/-- A method of a template class, with its access, its calling convention and a return type with two
blanks in a row. -/
theorem parse?_render_method :
    render ["public:"] (some "std::pair<int,  A (*)(int)> *") ["__cdecl"]
      (["ns", "Box<B::C, (1)>"] ++ ["get"]) "void) const" =
        "public: std::pair<int,  A (*)(int)> * __cdecl ns::Box<B::C, (1)>::get(void) const" ∧
      Signature.parse?
          (render ["public:"] (some "std::pair<int,  A (*)(int)> *") ["__cdecl"]
            (["ns", "Box<B::C, (1)>"] ++ ["get"]) "void) const") =
        some ⟨some "std::pair<int, A (*)(int)> *", some "ns::Box<B::C, (1)>", "get",
          "ns::Box<B::C, (1)>::get"⟩ := by
  refine ⟨by decide +kernel, ?_⟩
  refine (parse?_render (by decide) (by decide) ?_ (by decide +kernel) (by decide) _).trans
    (by decide +kernel)
  rintro t ⟨⟩
  decide +kernel

end Stackify.Name
