import AlgoFrontEnd.Proofs.Grammar.Conservation
import AlgoFrontEnd.Proofs.Number.Numerals
import AlgoFrontEnd.Proofs.Token.Spelling
import AlgoFrontEnd.Proofs.Tree.Notes
import Mathlib.Algebra.Order.BigOperators.Group.List
import Mathlib.Data.Multiset.OrderedMonoid
import Mathlib.Data.Set.Operations

/-! Types, places and headers recovered from their texts. Main statement: the text of a header is
the text of no other header, wherever their notes point. -/
namespace AlgoFrontEnd
open Token (Form Ends)

/-! ### What can be told from its text -/

/-- Finite floats that their texts tell apart. -/
structure Number.Distinct (floats : Set Float) : Prop where
  isNumberChar : ∀ x ∈ floats, ∀ c ∈ (Number.text x).toList, Number.isNumberChar c = true
  injOn : Set.InjOn Number.text floats

/-- What a token of a text can hold, with one of these floats. -/
def Token.Form.Legible (floats : Set Float) (f : Form) : Prop :=
  f.Spelled ∧ ∀ x, f = .float x → x ∈ floats

def Place.Legible {α : Type} (floats : Set Float) (p : Place α) : Prop :=
  ∀ f ∈ p.forms, f.Legible floats

/-- What follows an operand in the text of an expression, or nothing. -/
def Halts (rest : List Char) : Prop := ∀ c ∈ rest.head?, c ∈ [' ', ',', ')', ']']

theorem halts_nil : Halts [] := nofun

theorem halts_cons {c : Char} (h : c ∈ [' ', ',', ')', ']']) (rest : List Char) :
    Halts (c :: rest) := by
  simpa [Halts] using h

theorem Halts.ends {p : Char → Bool} {rest : List Char} (h : Halts rest)
    (hp : [' ', ',', ')', ']'].any p = false) : Ends p rest :=
  fun c hc => Bool.eq_false_of_not_eq_true (List.any_eq_false.mp hp c (h c hc))

theorem Halts.ne_cons {c : Char} {rest : List Char} (h : Halts rest)
    (hc : c ∉ [' ', ',', ')', ']']) (more : List Char) : rest ≠ c :: more := by
  rintro rfl
  exact hc (h c rfl)

/-- A run of characters ends where it cannot go on. -/
theorem run_cancel {p : Char → Bool} {xs ys rest rest' : List Char}
    (hx : ∀ x ∈ xs, p x = true) (hy : ∀ y ∈ ys, p y = true) (hr : Ends p rest)
    (hr' : Ends p rest') (h : xs ++ rest = ys ++ rest') : xs = ys ∧ rest = rest' := by
  obtain ⟨htake, hdrop⟩ := Token.takeWhile_eq_of_ends hx hr
  obtain ⟨htake', hdrop'⟩ := Token.takeWhile_eq_of_ends hy hr'
  exact ⟨by rw [← htake, h, htake'], by rw [← hdrop, h, hdrop']⟩

/-- In front of what can follow it, the text of `x` is the text of nothing that means something
else, and ends where it does. -/
def Recovered {β γ : Type} (legible : β → Prop) (chars : β → List Char) (meaning : β → γ)
    (x : β) : Prop :=
  ∀ y rest rest', legible y → Halts rest → Halts rest' → chars x ++ rest = chars y ++ rest' →
    meaning x = meaning y ∧ rest = rest'

/-! ### Texts with commas between them -/

section
variable {β γ : Type} {legible : β → Prop} {chars : β → List Char} {meaning : β → γ}

/-- What follows the first of several texts in front of a closing mark. -/
def behindFirst (closer : Char) (rest : List Char) : List (List Char) → List Char
  | [] => closer :: rest
  | texts => ',' :: ' ' :: ([',', ' '].intercalate texts ++ closer :: rest)

theorem intercalate_cons (closer : Char) (rest text : List Char) (texts : List (List Char)) :
    [',', ' '].intercalate (text :: texts) ++ closer :: rest =
      text ++ behindFirst closer rest texts := by
  cases texts with
  | nil => simp [behindFirst]
  | cons text' texts => simp [behindFirst, List.intercalate_cons_cons]

theorem halts_behindFirst {closer : Char} (hc : closer = ')' ∨ closer = ']') (rest : List Char)
    (texts : List (List Char)) : Halts (behindFirst closer rest texts) := by
  cases texts with
  | nil => rcases hc with rfl | rfl <;> exact halts_cons (by decide) rest
  | cons text texts => exact halts_cons (by decide) _

/-- As many things have the same texts in front of a closing mark, and mean the same. -/
theorem Recovered.commas {closer : Char} (hc : closer = ')' ∨ closer = ']') {xs ys : List β}
    (hx : ∀ x ∈ xs, Recovered legible chars meaning x ∧ ∃ c more, chars x = c :: more ∧ c ≠ closer)
    (hy : ∀ y ∈ ys, legible y ∧ ∃ c more, chars y = c :: more ∧ c ≠ closer)
    {rest rest' : List Char}
    (h : [',', ' '].intercalate (xs.map chars) ++ closer :: rest =
      [',', ' '].intercalate (ys.map chars) ++ closer :: rest') :
    xs.map meaning = ys.map meaning ∧ rest = rest' := by
  induction xs generalizing ys with
  | nil =>
    cases ys with
    | nil => exact ⟨rfl, (List.cons.inj h).2⟩
    | cons y ys =>
      obtain ⟨c, more, hchars, hne⟩ := (hy y (List.mem_cons_self ..)).2
      rw [List.map_cons, intercalate_cons, hchars] at h
      exact absurd (List.cons.inj h).1.symm hne
  | cons x xs ih =>
    obtain ⟨⟨hrec, c, more, hchars, hne⟩, hxs⟩ := List.forall_mem_cons.mp hx
    cases ys with
    | nil =>
      rw [List.map_cons, intercalate_cons, hchars] at h
      exact absurd (List.cons.inj h).1 hne
    | cons y ys =>
      obtain ⟨⟨hlegible, -⟩, hys⟩ := List.forall_mem_cons.mp hy
      rw [List.map_cons, List.map_cons, intercalate_cons, intercalate_cons] at h
      obtain ⟨hmeaning, h⟩ := hrec y _ _ hlegible (halts_behindFirst hc _ _)
        (halts_behindFirst hc _ _) h
      have hcomma : closer ≠ ',' := by rcases hc with rfl | rfl <;> decide
      rw [List.map_cons, List.map_cons, hmeaning]
      cases xs with
      | nil =>
        cases ys with
        | nil => exact ⟨rfl, (List.cons.inj h).2⟩
        | cons y' ys => exact absurd (List.cons.inj h).1 hcomma
      | cons x' xs =>
        cases ys with
        | nil => exact absurd (List.cons.inj h).1.symm hcomma
        | cons y' ys =>
          obtain ⟨hmore, hrest⟩ := ih hxs hys (List.cons.inj (List.cons.inj h).2).2
          exact ⟨congrArg _ hmore, hrest⟩

end

/-! ### Types and places -/

section
variable {α : Type} {floats : Set Float} {rest rest' : List Char}

/-- What stands behind the name of a type. -/
def brackets (isArray : Bool) : List Char := if isArray then ['[', ']'] else []

theorem Halts.brackets (h : Halts rest) (isArray : Bool) :
    Ends Token.isNameChar (brackets isArray ++ rest) := by
  cases isArray with
  | false => exact h.ends rfl
  | true => exact fun c hc => Option.some.inj hc ▸ rfl

theorem brackets_recovered {isArray isArray' : Bool} (hr : Halts rest) (hr' : Halts rest')
    (h : brackets isArray ++ rest = brackets isArray' ++ rest') :
    isArray = isArray' ∧ rest = rest' := by
  cases isArray with
  | false =>
    cases isArray' with
    | false => exact ⟨rfl, h⟩
    | true => exact absurd h (hr.ne_cons (by decide) _)
  | true =>
    cases isArray' with
    | false => exact absurd h.symm (hr'.ne_cons (by decide) _)
    | true => exact ⟨rfl, (List.cons.inj (List.cons.inj h).2).2⟩

theorem toList_text_typeRef (type : TypeRef) :
    type.text.toList = type.name.toList ++ brackets type.isArray := by
  unfold TypeRef.text brackets
  split <;> simp

theorem identifier_of_typeForms {type : TypeRef}
    (h : ∀ f ∈ typeForms (some type), f.Legible floats) : Token.Identifier type.name := by
  have h := (h (Grammar.typeForm type) (Multiset.mem_singleton_self _)).1
  unfold Grammar.typeForm at h
  split at h <;> exact h

/-- What stands behind an annotated name. -/
def typing : Option TypeRef → List Char
  | none => []
  | some type => ':' :: ' ' :: type.text.toList

theorem toList_annotated (name : String) (type : Option TypeRef) :
    (annotated name type).toList = name.toList ++ typing type := by
  cases type <;> simp [annotated, typing, toString]

theorem Halts.typing (h : Halts rest) (type : Option TypeRef) :
    Ends Token.isNameChar (typing type ++ rest) := by
  cases type with
  | none => exact h.ends rfl
  | some type => exact fun c hc => Option.some.inj hc ▸ rfl

theorem typing_recovered {type type' : Option TypeRef}
    (ht : ∀ f ∈ typeForms type, f.Legible floats) (ht' : ∀ f ∈ typeForms type', f.Legible floats)
    (hr : Halts rest) (hr' : Halts rest') (h : typing type ++ rest = typing type' ++ rest') :
    type = type' ∧ rest = rest' := by
  cases type with
  | none =>
    cases type' with
    | none => exact ⟨rfl, h⟩
    | some type' => exact absurd h (hr.ne_cons (by decide) _)
  | some type =>
    cases type' with
    | none => exact absurd h.symm (hr'.ne_cons (by decide) _)
    | some type' =>
      have h : type.text.toList ++ rest = type'.text.toList ++ rest' :=
        (List.cons.inj (List.cons.inj h).2).2
      rw [toList_text_typeRef, toList_text_typeRef, List.append_assoc, List.append_assoc] at h
      obtain ⟨hname, h⟩ := run_cancel (identifier_of_typeForms ht).isNameChar
        (identifier_of_typeForms ht').isNameChar (hr.brackets _) (hr'.brackets _) h
      obtain ⟨harray, hrest⟩ := brackets_recovered hr hr' h
      cases type
      cases type'
      cases String.toList_injective hname
      cases harray
      exact ⟨rfl, hrest⟩

/-- What stands behind the name of a place. -/
def Place.behindName : Place α → List Char
  | whole _ _ type => typing type
  | element _ _ offset => '[' :: ((toString offset).toList ++ [']'])

theorem Place.toList_text (p : Place α) : p.text.toList = p.name.toList ++ p.behindName := by
  cases p with
  | whole _ name type => exact toList_annotated name type
  | element _ array offset => simp [Place.text, Place.name, Place.behindName, toString]

theorem Halts.behindName (h : Halts rest) (p : Place α) :
    Ends Token.isNameChar (p.behindName ++ rest) := by
  cases p with
  | whole _ _ type => exact h.typing type
  | element _ _ _ => exact fun c hc => Option.some.inj hc ▸ rfl

theorem Place.Legible.ordinary {p : Place α} (h : p.Legible floats) : Token.Ordinary p.name := by
  cases p with
  | whole _ name _ => exact (h (.name name) (Multiset.mem_cons_self ..)).1
  | element _ array _ => exact (h (.name array) (by simp [Place.forms])).1

/-- The digits of a number tell it. -/
theorem digits_recovered {value value' : Int} (h₀ : 0 ≤ value) (h₀' : 0 ≤ value')
    (h : (toString value).toList = (toString value').toList) : value = value' := by
  rw [Token.Lexes.toList_toString h₀, Token.Lexes.toList_toString h₀'] at h
  have hnat : value.toNat = value'.toNat := by
    rw [← Nat.ofDigitChars_ten_toDigits (n := value.toNat), h, Nat.ofDigitChars_ten_toDigits]
  rw [← Int.toNat_of_nonneg h₀, hnat, Int.toNat_of_nonneg h₀']

/-- What stands behind the name of a place tells the rest of it. -/
theorem behindName_recovered {p p' : Place α} (hp : p.Legible floats) (hp' : p'.Legible floats)
    (hr : Halts rest) (hr' : Halts rest') (hname : p.name = p'.name)
    (h : p.behindName ++ rest = p'.behindName ++ rest') :
    p.map (fun _ => ()) = p'.map (fun _ => ()) ∧ rest = rest' := by
  cases p with
  | whole n name type =>
    cases p' with
    | whole n' name' type' =>
      have ht : ∀ f ∈ typeForms type, f.Legible floats :=
        fun f hf => hp f (Multiset.mem_cons_of_mem hf)
      have ht' : ∀ f ∈ typeForms type', f.Legible floats :=
        fun f hf => hp' f (Multiset.mem_cons_of_mem hf)
      obtain ⟨rfl, hrest⟩ := typing_recovered ht ht' hr hr' h
      obtain rfl : name = name' := hname
      exact ⟨rfl, hrest⟩
    | element n' array' offset' =>
      cases type with
      | none => exact absurd h (hr.ne_cons (by decide) _)
      | some type => exact absurd (List.cons.inj h).1 (by decide)
  | element n array offset =>
    cases p' with
    | whole n' name' type' =>
      cases type' with
      | none => exact absurd h.symm (hr'.ne_cons (by decide) _)
      | some type' => exact absurd (List.cons.inj h).1 (by decide)
    | element n' array' offset' =>
      have h₀ : 0 ≤ offset := (hp (.int offset) (by simp [Place.forms])).1
      have h₀' : 0 ≤ offset' := (hp' (.int offset') (by simp [Place.forms])).1
      have h : (toString offset).toList ++ [']'] ++ rest =
          (toString offset').toList ++ [']'] ++ rest' := (List.cons.inj h).2
      have hends (rest : List Char) : Ends Char.isDigit (']' :: rest) :=
        fun c hc => Option.some.inj hc ▸ rfl
      rw [List.append_assoc, List.append_assoc] at h
      obtain ⟨hdigits, hrest⟩ := run_cancel (Token.Lexes.isDigit_of_mem_toString h₀)
        (Token.Lexes.isDigit_of_mem_toString h₀') (hends _) (hends _) h
      obtain rfl := digits_recovered h₀ h₀' hdigits
      obtain rfl : array = array' := hname
      exact ⟨rfl, (List.cons.inj hrest).2⟩

end

/-! ### Headers -/

section
variable {α : Type} {floats : Set Float}

def Parameter.Legible (floats : Set Float) (p : Parameter α) : Prop :=
  ∀ f ∈ p.forms, f.Legible floats

def Header.Legible (floats : Set Float) (h : Header α) : Prop :=
  ∀ f ∈ h.forms, f.Legible floats

theorem Parameter.Legible.ordinary {p : Parameter α} (h : p.Legible floats) :
    Token.Ordinary p.name :=
  (h (.name p.name) (Multiset.mem_cons_self ..)).1

theorem Parameter.recovered {p : Parameter α} (hp : p.Legible floats) :
    Recovered (Parameter.Legible floats)
      (fun p : Parameter α => (annotated p.name p.type).toList) (Parameter.map fun _ => ()) p := by
  intro q rest rest' hq hr hr' h
  simp only [toList_annotated, List.append_assoc] at h
  obtain ⟨hname, h⟩ := run_cancel hp.ordinary.identifier.isNameChar
    hq.ordinary.identifier.isNameChar (hr.typing _) (hr'.typing _) h
  obtain ⟨htype, hrest⟩ := typing_recovered (fun f hf => hp f (Multiset.mem_cons_of_mem hf))
    (fun f hf => hq f (Multiset.mem_cons_of_mem hf)) hr hr' h
  refine ⟨?_, hrest⟩
  rw [Parameter.map, Parameter.map, String.toList_injective hname, htype]

theorem Parameter.exists_ne_closer {p : Parameter α} (hp : p.Legible floats) :
    ∃ c more, (annotated p.name p.type).toList = c :: more ∧ c ≠ ')' := by
  obtain ⟨c, more, hc, hs, -⟩ := hp.ordinary.identifier
  refine ⟨c, more ++ typing p.type, by rw [toList_annotated, hc]; rfl, ?_⟩
  rintro rfl
  cases hs

theorem Header.Legible.ordinary {h : Header α} (hl : h.Legible floats) : Token.Ordinary h.name :=
  (hl (.name h.name) (Multiset.mem_cons_self ..)).1

theorem Header.Legible.parameters {h : Header α} (hl : h.Legible floats) :
    ∀ p ∈ h.parameters, p.Legible floats := by
  intro p hp f hf
  have hle : p.forms ≤ (h.parameters.map Parameter.forms).sum :=
    List.le_sum_of_mem (List.mem_map_of_mem hp)
  exact hl f (Multiset.mem_cons_of_mem
    (Multiset.mem_add.mpr (.inl (Multiset.mem_of_le hle hf))))

theorem Header.Legible.result {h : Header α} (hl : h.Legible floats) :
    ∀ f ∈ typeForms h.result, f.Legible floats :=
  fun f hf => hl f (Multiset.mem_cons_of_mem (Multiset.mem_add.mpr (.inr hf)))

theorem Header.toList_text (h : Header α) :
    h.text.toList = h.name.toList ++ '(' ::
      ([',', ' '].intercalate (h.parameters.map fun p => (annotated p.name p.type).toList) ++
        ')' :: typing h.result) := by
  cases h with
  | mk name parameters result =>
    cases result <;> simp [text, typing, String.toList_intercalate, Function.comp_def]

/-- A header is told by its text. -/
theorem Header.map_eq_of_text {h h' : Header α} (hl : h.Legible floats) (hl' : h'.Legible floats)
    (ht : h.text = h'.text) : h.map (fun _ => ()) = h'.map fun _ => () := by
  have ht := congrArg String.toList ht
  rw [toList_text, toList_text] at ht
  have hends (cs : List Char) : Ends Token.isNameChar ('(' :: cs) :=
    fun c hc => Option.some.inj hc ▸ rfl
  obtain ⟨hname, ht⟩ := run_cancel hl.ordinary.identifier.isNameChar
    hl'.ordinary.identifier.isNameChar (hends _) (hends _) ht
  obtain ⟨hparameters, ht⟩ := Recovered.commas (.inl rfl)
    (fun p hp => ⟨Parameter.recovered (hl.parameters p hp),
      Parameter.exists_ne_closer (hl.parameters p hp)⟩)
    (fun p hp => ⟨hl'.parameters p hp, Parameter.exists_ne_closer (hl'.parameters p hp)⟩)
    (List.cons.inj ht).2
  obtain ⟨hresult, -⟩ := typing_recovered hl.result hl'.result halts_nil halts_nil
    (congrArg (· ++ []) ht)
  rw [map, map, String.toList_injective hname, hparameters, hresult]

end

end AlgoFrontEnd
