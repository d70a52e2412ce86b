import AlgoFrontEnd.Proofs.Tree.Recovery

/-! Expressions recovered from their texts. Main statement: in front of what can follow an
expression, its text is the text of no other expression, and ends where it does. -/
namespace AlgoFrontEnd
open Token (Form Ends)

/-! ### First characters -/

/-- What the text of an expression begins with. -/
inductive Lead where
  | number | word | quote | square | round
  deriving DecidableEq

def Lead.ofChar? (c : Char) : Option Lead :=
  if c.isDigit || c = '-' then some number
  else if Token.isNameStart c then some word
  else if c = '"' then some quote
  else if c = '[' then some square
  else if c = '(' then some round
  else none

theorem Lead.ofChar?_digit {c : Char} (h : c.isDigit = true) : ofChar? c = some number := by
  simp [ofChar?, h]

theorem Lead.ofChar?_nameStart {c : Char} (h : Token.isNameStart c = true) :
    ofChar? c = some word :=
  Token.ascii_forall (P := fun c => Token.isNameStart c = true → ofChar? c = some word)
    (by decide +kernel) (Token.ascii_of_isNameStart h) h

namespace Expr
variable {α : Type} {floats : Set Float} {rest rest' : List Char} {e e' : Expr α}

def Legible (floats : Set Float) (e : Expr α) : Prop := ∀ f ∈ e.forms, f.Legible floats

def lead : Expr α → Lead
  | int _ _ | float _ _ => .number
  | bool _ _ | place _ | call _ _ _ => .word
  | string _ _ => .quote
  | array _ _ => .square
  | binary _ _ _ _ | sign _ _ _ | assign _ _ _ => .round

/-- Expressions with commas between them. -/
def joined (es : List (Expr α)) : List Char :=
  [',', ' '].intercalate (es.map (·.text.toList))

theorem toList_texts (es : List (Expr α)) : (", ".intercalate (texts es)).toList = joined es := by
  have htexts : texts es = es.map text := by
    induction es with
    | nil => rfl
    | cons e es ih => rw [texts, ih, List.map_cons]
  rw [String.toList_intercalate, htexts, List.map_map]
  rfl

theorem toList_text_bool (n : α) (b : Bool) :
    (bool n b).text.toList = (Form.boolText b).toList := by
  rw [text, Form.boolText]

theorem toList_text_string (n : α) (value : String) :
    (string n value).text.toList = '"' :: (value.toList ++ ['"']) := by
  simp [text]

theorem toList_text_array (n : α) (es : List (Expr α)) :
    (array n es).text.toList = '[' :: (joined es ++ [']']) := by
  simp [text, ← toList_texts]

theorem toList_text_call (n : α) (function : String) (es : List (Expr α)) :
    (call n function es).text.toList = function.toList ++ '(' :: (joined es ++ [')']) := by
  simp [text, ← toList_texts]

theorem toList_text_binary (n : α) (op : BinaryOp) (left right : Expr α) :
    (binary n op left right).text.toList = '(' :: (left.text.toList ++
      ' ' :: (op.spelling.toList ++ ' ' :: (right.text.toList ++ [')']))) := by
  simp [text, toString]

theorem toList_text_sign (n : α) (s : Sign) (operand : Expr α) :
    (sign n s operand).text.toList =
      '(' :: (s.spelling.toList ++ (operand.text.toList ++ [')'])) := by
  simp [text, toString]

theorem toList_text_assign (n : α) (target : Place α) (value : Expr α) :
    (assign n target value).text.toList = '(' :: (target.text.toList ++
      ' ' :: (Connective.assign.spelling.toList ++ ' ' :: (value.text.toList ++ [')']))) := by
  simp [text, Connective.spelling, toString]

/-! ### Parts of legible expressions -/

theorem Legible.int {n : α} {value : Int} (h : (int n value).Legible floats) : 0 ≤ value :=
  (h _ (Multiset.mem_singleton_self _)).1

theorem Legible.float {n : α} {x : Float} (h : (float n x).Legible floats) : x ∈ floats :=
  (h _ (Multiset.mem_singleton_self _)).2 x rfl

theorem Legible.string {n : α} {value : String} (h : (string n value).Legible floats) :
    '"' ∉ value.toList ∧ '\n' ∉ value.toList :=
  (h _ (Multiset.mem_singleton_self _)).1

theorem Legible.function {n : α} {function : String} {es : List (Expr α)}
    (h : (call n function es).Legible floats) : Token.Ordinary function :=
  (h (.call function) (by simp [Expr.forms])).1

theorem forall_mem_formsAll {P : Form → Prop} {es : List (Expr α)} :
    (∀ f ∈ formsAll es, P f) ↔ ∀ e ∈ es, ∀ f ∈ e.forms, P f := by
  induction es with
  | nil => simp [formsAll]
  | cons e es ih =>
    simp only [formsAll, Multiset.mem_add, or_imp, forall_and, ih, List.forall_mem_cons]

theorem Legible.elements {n : α} {es : List (Expr α)} (h : (array n es).Legible floats) :
    ∀ e ∈ es, e.Legible floats :=
  forall_mem_formsAll.mp h

theorem Legible.arguments {n : α} {function : String} {es : List (Expr α)}
    (h : (call n function es).Legible floats) : ∀ e ∈ es, e.Legible floats :=
  forall_mem_formsAll.mp fun f hf => h f (Multiset.mem_cons_of_mem hf)

theorem Legible.binary {n : α} {op : BinaryOp} {left right : Expr α}
    (h : (binary n op left right).Legible floats) :
    left.Legible floats ∧ right.Legible floats := by
  simp only [Expr.Legible, forms, Multiset.mem_cons, Multiset.mem_add, or_imp, forall_and] at h
  exact h.2

theorem Legible.sign {n : α} {s : Sign} {operand : Expr α}
    (h : (sign n s operand).Legible floats) : operand.Legible floats :=
  fun f hf => h f (Multiset.mem_cons_of_mem hf)

theorem Legible.assign {n : α} {target : Place α} {value : Expr α}
    (h : (assign n target value).Legible floats) :
    (place target).Legible floats ∧ value.Legible floats := by
  simp only [Expr.Legible, forms, Multiset.mem_cons, Multiset.mem_add, or_imp, forall_and] at h
  exact h.2

/-- An expression is told by its text. -/
def Told (floats : Set Float) (e : Expr α) : Prop :=
  Recovered (Expr.Legible floats) (fun e : Expr α => e.text.toList) (Expr.map fun _ => ()) e

/-! ### Kinds of expressions -/

section
variable (hf : Number.Distinct floats)
include hf

/-- A text begins as its expression does. -/
theorem exists_lead (h : e.Legible floats) :
    ∃ c more, e.text.toList = c :: more ∧ Lead.ofChar? c = some e.lead := by
  cases e with
  | int n value =>
    obtain ⟨c, more, hc⟩ := List.exists_cons_of_ne_nil (Token.Lexes.toList_toString_ne_nil h.int)
    have hdigit := Token.Lexes.isDigit_of_mem_toString h.int c (hc ▸ List.mem_cons_self ..)
    exact ⟨c, more, hc, Lead.ofChar?_digit hdigit⟩
  | float n x =>
    obtain ⟨sign, cs, htext, hsign, ⟨c, more, rfl, hc⟩, -⟩ :=
      Number.exists_marked_text (hf.isNumberChar x h.float)
    rcases hsign with rfl | rfl
    · exact ⟨c, more, htext, Lead.ofChar?_digit hc⟩
    · exact ⟨'-', c :: more, htext, rfl⟩
  | bool n b =>
    rw [toList_text_bool]
    cases b with
    | false => exact ⟨'f', _, rfl, rfl⟩
    | true => exact ⟨'t', _, rfl, rfl⟩
  | string n value => exact ⟨_, _, toList_text_string n value, rfl⟩
  | array n es => exact ⟨_, _, toList_text_array n es, rfl⟩
  | place p =>
    obtain ⟨c, more, hc, hs, -⟩ := (Place.Legible.ordinary h).identifier
    exact ⟨c, _, by rw [text, p.toList_text, hc]; rfl, Lead.ofChar?_nameStart hs⟩
  | call n function es =>
    obtain ⟨c, more, hc, hs, -⟩ := h.function.identifier
    exact ⟨c, _, by rw [toList_text_call, hc]; rfl, Lead.ofChar?_nameStart hs⟩
  | binary n op left right => exact ⟨_, _, toList_text_binary n op left right, rfl⟩
  | sign n s operand => exact ⟨_, _, toList_text_sign n s operand, rfl⟩
  | assign n target value => exact ⟨_, _, toList_text_assign n target value, rfl⟩

theorem lead_eq (he : e.Legible floats) (he' : e'.Legible floats)
    (h : e.text.toList ++ rest = e'.text.toList ++ rest') : e.lead = e'.lead := by
  obtain ⟨c, more, htext, hc⟩ := exists_lead hf he
  obtain ⟨c', more', htext', hc'⟩ := exists_lead hf he'
  rw [htext, htext'] at h
  obtain rfl : c = c' := (List.cons.inj h).1
  exact Option.some.inj (hc.symm.trans hc')

/-- No expression begins with a mark that closes. -/
theorem exists_ne_closer (h : e.Legible floats) {closer : Char}
    (hc : closer = ')' ∨ closer = ']') : ∃ c more, e.text.toList = c :: more ∧ c ≠ closer := by
  obtain ⟨c, more, htext, hlead⟩ := exists_lead hf h
  refine ⟨c, more, htext, ?_⟩
  rintro rfl
  rcases hc with rfl | rfl <;> cases hlead

/-! ### Numbers -/

theorem isNumberChar_of_lead (h : e.Legible floats) (hl : e.lead = .number) :
    ∀ c ∈ e.text.toList, Number.isNumberChar c = true := by
  cases e with
  | int n value =>
    intro c hc
    simp [Number.isNumberChar, Token.Lexes.isDigit_of_mem_toString h.int c hc]
  | float n x => exact hf.isNumberChar x h.float
  | _ => cases hl

/-- Something in the text of a float is no digit. -/
theorem exists_mem_text_float {n : α} {x : Float} (h : (float n x).Legible floats) :
    ∃ c ∈ (float n x).text.toList, c.isDigit = false := by
  obtain ⟨sign, cs, htext, -, -, hmark⟩ :=
    Number.exists_marked_text (hf.isNumberChar x h.float)
  rw [text, htext]
  rcases hmark with hmark | hmark
  · exact ⟨'.', List.mem_append_right _ hmark, rfl⟩
  · exact ⟨'e', List.mem_append_right _ hmark, rfl⟩

theorem text_int_ne_float {n n' : α} {value : Int} {x : Float}
    (h : (int n value).Legible floats) (h' : (float n' x).Legible floats) :
    (int n value).text.toList ≠ (float n' x).text.toList := by
  intro htext
  obtain ⟨c, hc, hdigit⟩ := exists_mem_text_float hf h'
  rw [← htext] at hc
  rw [Token.Lexes.isDigit_of_mem_toString h.int c hc] at hdigit
  cases hdigit

theorem number_told (he : e.Legible floats) (hl : e.lead = .number) : e.Told floats := by
  intro e' rest rest' he' hr hr' h
  have hl' : e'.lead = .number := (lead_eq hf he he' h).symm.trans hl
  obtain ⟨htext, hrest⟩ := run_cancel (isNumberChar_of_lead hf he hl)
    (isNumberChar_of_lead hf he' hl') (hr.ends rfl) (hr'.ends rfl) h
  refine ⟨?_, hrest⟩
  cases e with
  | int n value =>
    cases e' with
    | int n' value' =>
      obtain rfl := digits_recovered he.int he'.int htext
      rfl
    | float n' x' => exact absurd htext (text_int_ne_float hf he he')
    | _ => cases hl'
  | float n x =>
    cases e' with
    | int n' value' => exact absurd htext.symm (text_int_ne_float hf he' he)
    | float n' x' =>
      obtain rfl := hf.injOn he.float he'.float (String.toList_injective htext)
      rfl
    | _ => cases hl'
  | _ => cases hl

/-! ### Words -/

omit hf

/-- The word that an expression begins with. -/
def word : Expr α → String
  | bool _ b => Form.boolText b
  | place p => p.name
  | call _ function _ => function
  | _ => ""

def behindWord : Expr α → List Char
  | place p => p.behindName
  | call _ _ arguments => '(' :: (joined arguments ++ [')'])
  | _ => []

theorem toList_text_of_word (hl : e.lead = .word) :
    e.text.toList = e.word.toList ++ e.behindWord := by
  cases e with
  | bool n b =>
    rw [toList_text_bool, word]
    exact (List.append_nil _).symm
  | place p => rw [text, p.toList_text, word, behindWord]
  | call n function es => exact toList_text_call n function es
  | _ => cases hl

theorem isNameChar_of_word (h : e.Legible floats) :
    ∀ c ∈ e.word.toList, Token.isNameChar c = true := by
  cases e with
  | bool n b =>
    rw [word]
    cases b <;> exact List.all_eq_true.mp (by decide)
  | place p => exact (Place.Legible.ordinary h).identifier.isNameChar
  | call n function es => exact h.function.identifier.isNameChar
  | _ => exact List.forall_mem_nil _

theorem ends_behindWord (hr : Halts rest) (e : Expr α) :
    Ends Token.isNameChar (e.behindWord ++ rest) := by
  cases e with
  | place p => exact hr.behindName p
  | call n function es => exact fun c hc => Option.some.inj hc ▸ rfl
  | _ => exact hr.ends rfl

theorem boolText_ne_ordinary {name : String} (h : Token.Ordinary name) (b : Bool) :
    Form.boolText b ≠ name := by
  rintro rfl
  exact h.free (by cases b <;> decide)

/-- A place is not written like a call. -/
theorem behindName_ne_call {p : Place α} (hr : Halts rest) (more : List Char) :
    p.behindName ++ rest ≠ '(' :: more := by
  intro h
  cases p with
  | whole n name type =>
    cases type with
    | none => exact hr.ne_cons (by decide) _ h
    | some type => exact absurd (List.cons.inj h).1 (by decide)
  | element n array offset => exact absurd (List.cons.inj h).1 (by decide)

include hf

theorem word_cancel (he : e.Legible floats) (he' : e'.Legible floats) (hl : e.lead = .word)
    (hr : Halts rest) (hr' : Halts rest')
    (h : e.text.toList ++ rest = e'.text.toList ++ rest') :
    e'.lead = .word ∧ e.word = e'.word ∧ e.behindWord ++ rest = e'.behindWord ++ rest' := by
  have hl' : e'.lead = .word := (lead_eq hf he he' h).symm.trans hl
  rw [toList_text_of_word hl, toList_text_of_word hl', List.append_assoc, List.append_assoc] at h
  obtain ⟨hword, hrest⟩ := run_cancel (isNameChar_of_word he) (isNameChar_of_word he')
    (ends_behindWord hr e) (ends_behindWord hr' e') h
  exact ⟨hl', String.toList_injective hword, hrest⟩

theorem bool_told {n : α} {b : Bool} (he : (bool n b).Legible floats) :
    (bool n b).Told floats := by
  intro e' rest rest' he' hr hr' h
  obtain ⟨hl', hword, hrest⟩ := word_cancel hf he he' rfl hr hr' h
  cases e' with
  | bool n' b' =>
    have hword : Form.boolText b = Form.boolText b' := hword
    have hb : b = b' := by revert hword; cases b <;> cases b' <;> decide
    exact ⟨congrArg (Expr.bool ()) hb, hrest⟩
  | place p => exact absurd hword (boolText_ne_ordinary (Place.Legible.ordinary he') b)
  | call n' function es => exact absurd hword (boolText_ne_ordinary he'.function b)
  | _ => cases hl'

theorem place_told {p : Place α} (he : (place p).Legible floats) : (place p).Told floats := by
  intro e' rest rest' he' hr hr' h
  obtain ⟨hl', hword, hrest⟩ := word_cancel hf he he' rfl hr hr' h
  cases e' with
  | bool n' b' =>
    exact absurd hword.symm (boolText_ne_ordinary (Place.Legible.ordinary he) b')
  | place p' =>
    obtain ⟨hp, hrest⟩ := behindName_recovered he he' hr hr' hword hrest
    exact ⟨congrArg Expr.place hp, hrest⟩
  | call n' function es => exact absurd hrest (behindName_ne_call hr _)
  | _ => cases hl'

/-- Elements in front of a closing mark are told if each of them is. -/
theorem joined_told {es es' : List (Expr α)} {closer : Char} (hc : closer = ')' ∨ closer = ']')
    (hes : ∀ e ∈ es, e.Legible floats ∧ e.Told floats) (hes' : ∀ e ∈ es', e.Legible floats)
    (h : joined es ++ closer :: rest = joined es' ++ closer :: rest') :
    mapAll (fun _ => ()) es = mapAll (fun _ => ()) es' ∧ rest = rest' := by
  rw [mapAll_eq_map, mapAll_eq_map]
  exact Recovered.commas hc
    (fun e he => ⟨(hes e he).2, exists_ne_closer hf (hes e he).1 hc⟩)
    (fun e he => ⟨hes' e he, exists_ne_closer hf (hes' e he) hc⟩) h

theorem call_told {n : α} {function : String} {es : List (Expr α)}
    (he : (call n function es).Legible floats) (hes : ∀ e ∈ es, e.Told floats) :
    (call n function es).Told floats := by
  intro e' rest rest' he' hr hr' h
  obtain ⟨hl', hword, hrest⟩ := word_cancel hf he he' rfl hr hr' h
  cases e' with
  | bool n' b' => exact absurd hword.symm (boolText_ne_ordinary he.function b')
  | place p' => exact absurd hrest.symm (behindName_ne_call hr' _)
  | call n' function' es' =>
    have hrest : joined es ++ [')'] ++ rest = joined es' ++ [')'] ++ rest' :=
      (List.cons.inj hrest).2
    rw [List.append_assoc, List.append_assoc] at hrest
    obtain ⟨hmap, hend⟩ := joined_told hf (.inl rfl)
      (fun e hm => ⟨he.arguments e hm, hes e hm⟩) he'.arguments hrest
    obtain rfl : function = function' := hword
    exact ⟨congrArg (Expr.call () function) hmap, hend⟩
  | _ => cases hl'

/-! ### Quotes and brackets -/

theorem string_told {n : α} {value : String} (he : (string n value).Legible floats) :
    (string n value).Told floats := by
  intro e' rest rest' he' hr hr' h
  have hl' := lead_eq hf he he' h
  cases e' with
  | string n' value' =>
    simp only [toList_text_string, List.cons_append, List.append_assoc] at h
    obtain ⟨hvalue, hrest⟩ := eq_of_append_eq he.string.1 he'.string.1 (by simp) (by simp)
      (List.cons.inj h).2
    obtain rfl := String.toList_injective hvalue
    exact ⟨rfl, (List.cons.inj hrest).2⟩
  | _ => cases hl'

theorem array_told {n : α} {es : List (Expr α)} (he : (array n es).Legible floats)
    (hes : ∀ e ∈ es, e.Told floats) : (array n es).Told floats := by
  intro e' rest rest' he' hr hr' h
  have hl' := lead_eq hf he he' h
  cases e' with
  | array n' es' =>
    simp only [toList_text_array, List.cons_append, List.append_assoc] at h
    obtain ⟨hmap, hrest⟩ := joined_told hf (.inr rfl)
      (fun e hm => ⟨he.elements e hm, hes e hm⟩) he'.elements (List.cons.inj h).2
    exact ⟨congrArg (Expr.array ()) hmap, hrest⟩
  | _ => cases hl'

/-! ### Parentheses -/

omit hf in
theorem sign_cancel {s s' : Sign} (h : s.spelling.toList ++ rest = s'.spelling.toList ++ rest') :
    s = s' ∧ rest = rest' := by
  cases s <;> cases s'
  · exact ⟨rfl, (List.cons.inj h).2⟩
  · exact absurd (List.cons.inj h).1 (by decide)
  · exact absurd (List.cons.inj h).1 (by decide)
  · exact ⟨rfl, (List.cons.inj h).2⟩

omit hf in
/-- Two operands with a connective between them, in front of what closes them. -/
theorem pair_told {left left' right right' : Expr α} (c c' : Connective)
    (hl : left.Told floats) (hl' : left'.Legible floats) (hr : right.Told floats)
    (hr' : right'.Legible floats)
    (h : left.text.toList ++ ' ' :: (c.spelling.toList ++ ' ' ::
        (right.text.toList ++ ')' :: rest)) =
      left'.text.toList ++ ' ' :: (c'.spelling.toList ++ ' ' ::
        (right'.text.toList ++ ')' :: rest'))) :
    left.map (fun _ => ()) = left'.map (fun _ => ()) ∧ c = c' ∧
      right.map (fun _ => ()) = right'.map (fun _ => ()) ∧ rest = rest' := by
  have hblank (c : Connective) : ' ' ∉ c.spelling.toList := by
    cases c with
    | assign => decide
    | operate op => cases op <;> decide
  obtain ⟨hleft, h⟩ := hl left' _ _ hl' (halts_cons (by decide) _) (halts_cons (by decide) _) h
  obtain ⟨hc, h⟩ := eq_of_append_eq (hblank c) (hblank c') (by simp) (by simp)
    (List.cons.inj h).2
  obtain ⟨hright, h⟩ := hr right' _ _ hr' (halts_cons (by decide) _) (halts_cons (by decide) _)
    (List.cons.inj h).2
  exact ⟨hleft, Token.spelling_injective (String.toList_injective hc), hright,
    (List.cons.inj h).2⟩

/-- A minus at the beginning of a number belongs to it, and a digit follows. -/
theorem exists_digit_of_minus {tail : List Char} (h : e.Legible floats) (hl : e.lead = .number)
    (htext : e.text.toList = '-' :: tail) : ∃ d more, tail = d :: more ∧ d.isDigit = true := by
  cases e with
  | int n value =>
    have := Token.Lexes.isDigit_of_mem_toString h.int '-' (htext ▸ List.mem_cons_self ..)
    cases this
  | float n x =>
    obtain ⟨sign, cs, hcs, hsign, ⟨d, more, rfl, hd⟩, -⟩ :=
      Number.exists_marked_text (hf.isNumberChar x h.float)
    rw [text, hcs] at htext
    rcases hsign with rfl | rfl
    · rw [(List.cons.inj htext).1] at hd
      cases hd
    · exact ⟨d, more, (List.cons.inj htext).2.symm, hd⟩
  | _ => cases hl

/-- A sign in front of an operand is no beginning of a pair of operands, even where the left one
is a negative number. -/
theorem sign_ne_pair {s : Sign} {operand left : Expr α} (ho : operand.Legible floats)
    (hl : left.Legible floats) (more : List Char) :
    s.spelling.toList ++ (operand.text.toList ++ ')' :: rest) ≠
      left.text.toList ++ ' ' :: more := by
  intro h
  obtain ⟨c, tail, htext, hlead⟩ := exists_lead hf hl
  rw [htext] at h
  cases s with
  | positive =>
    obtain rfl : '+' = c := (List.cons.inj h).1
    cases hlead
  | negate =>
    obtain rfl : '-' = c := (List.cons.inj h).1
    have hnumber : left.lead = .number := (Option.some.inj hlead).symm
    have h : operand.text.toList ++ ')' :: rest = tail ++ ' ' :: more := (List.cons.inj h).2
    -- the operand would be a number too and end where the left one does, before another mark
    obtain ⟨d, tail', rfl, hd⟩ := exists_digit_of_minus hf hl hnumber htext
    obtain ⟨c, more', htext', hlead'⟩ := exists_lead hf ho
    have ho' : operand.lead = .number := by
      rw [htext'] at h
      rw [(List.cons.inj h).1, Lead.ofChar?_digit hd] at hlead'
      exact (Option.some.inj hlead').symm
    have hchars := isNumberChar_of_lead hf hl hnumber
    rw [htext] at hchars
    obtain ⟨-, h⟩ := run_cancel (isNumberChar_of_lead hf ho ho')
      (fun x hx => hchars x (List.mem_cons_of_mem _ hx))
      ((halts_cons (by decide) _).ends rfl) ((halts_cons (by decide) _).ends rfl) h
    exact absurd (List.cons.inj h).1 (by decide)

theorem binary_told {n : α} {op : BinaryOp} {left right : Expr α}
    (he : (binary n op left right).Legible floats) (hl : left.Told floats)
    (hr : right.Told floats) : (binary n op left right).Told floats := by
  intro e' rest rest' he' _ _ h
  have hlead := lead_eq hf he he' h
  cases e' with
  | binary n' op' left' right' =>
    simp only [toList_text_binary, List.cons_append, List.append_assoc] at h
    obtain ⟨hleft, hop, hright, hrest⟩ := pair_told (.operate op) (.operate op') hl
      he'.binary.1 hr he'.binary.2 (List.cons.inj h).2
    cases hop
    exact ⟨congrArg₂ (Expr.binary () op) hleft hright, hrest⟩
  | sign n' s operand =>
    simp only [toList_text_binary, toList_text_sign, List.cons_append, List.append_assoc] at h
    exact absurd (List.cons.inj h).2.symm (sign_ne_pair hf he'.sign he.binary.1 _)
  | assign n' target value =>
    simp only [toList_text_binary, toList_text_assign, List.cons_append, List.append_assoc] at h
    obtain ⟨-, hop, -⟩ := pair_told (.operate op) .assign hl
      he'.assign.1 hr he'.assign.2 (List.cons.inj h).2
    cases hop
  | _ => cases hlead

theorem sign_told {n : α} {s : Sign} {operand : Expr α}
    (he : (sign n s operand).Legible floats) (ho : operand.Told floats) :
    (sign n s operand).Told floats := by
  intro e' rest rest' he' _ _ h
  have hlead := lead_eq hf he he' h
  cases e' with
  | binary n' op' left' right' =>
    simp only [toList_text_binary, toList_text_sign, List.cons_append, List.append_assoc] at h
    exact absurd (List.cons.inj h).2 (sign_ne_pair hf he.sign he'.binary.1 _)
  | sign n' s' operand' =>
    simp only [toList_text_sign, List.cons_append, List.append_assoc] at h
    obtain ⟨rfl, hoperand⟩ := sign_cancel (List.cons.inj h).2
    obtain ⟨hmap, hrest⟩ := ho operand' _ _ he'.sign (halts_cons (by decide) _)
      (halts_cons (by decide) _) hoperand
    exact ⟨congrArg (Expr.sign () s) hmap, (List.cons.inj hrest).2⟩
  | assign n' target value =>
    simp only [toList_text_sign, toList_text_assign, List.cons_append, List.append_assoc] at h
    exact absurd (List.cons.inj h).2 (sign_ne_pair hf he.sign he'.assign.1 _)
  | _ => cases hlead

theorem assign_told {n : α} {target : Place α} {value : Expr α}
    (he : (assign n target value).Legible floats) (hv : value.Told floats) :
    (assign n target value).Told floats := by
  have ht : (place target).Told floats := place_told hf he.assign.1
  intro e' rest rest' he' _ _ h
  have hlead := lead_eq hf he he' h
  cases e' with
  | binary n' op' left' right' =>
    simp only [toList_text_binary, toList_text_assign, List.cons_append, List.append_assoc] at h
    obtain ⟨-, hop, -⟩ := pair_told .assign (.operate op') ht
      he'.binary.1 hv he'.binary.2 (List.cons.inj h).2
    cases hop
  | sign n' s operand =>
    simp only [toList_text_assign, toList_text_sign, List.cons_append, List.append_assoc] at h
    exact absurd (List.cons.inj h).2.symm (sign_ne_pair hf he'.sign he.assign.1 _)
  | assign n' target' value' =>
    simp only [toList_text_assign, List.cons_append, List.append_assoc] at h
    obtain ⟨htarget, -, hvalue, hrest⟩ := pair_told .assign .assign ht
      he'.assign.1 hv he'.assign.2 (List.cons.inj h).2
    exact ⟨congrArg₂ (Expr.assign ()) (Expr.place.inj htarget) hvalue, hrest⟩
  | _ => cases hlead

end

/-! ### Expressions -/

mutual
/-- Every expression whose names, quotes and numbers can be told is told by its text. -/
theorem told (hf : Number.Distinct floats) : (e : Expr α) → e.Legible floats → e.Told floats
  | .int _ _, h => number_told hf h rfl
  | .float _ _, h => number_told hf h rfl
  | .bool _ _, h => bool_told hf h
  | .string _ _, h => string_told hf h
  | .array _ es, h => array_told hf h (toldAll hf es h.elements)
  | .place _, h => place_told hf h
  | .call _ _ es, h => call_told hf h (toldAll hf es h.arguments)
  | .binary _ _ left right, h =>
    binary_told hf h (told hf left h.binary.1) (told hf right h.binary.2)
  | .sign _ _ operand, h => sign_told hf h (told hf operand h.sign)
  | .assign _ _ value, h => assign_told hf h (told hf value h.assign.2)

theorem toldAll (hf : Number.Distinct floats) :
    (es : List (Expr α)) → (∀ e ∈ es, e.Legible floats) → ∀ e ∈ es, e.Told floats
  | [], _ => List.forall_mem_nil _
  | e :: es, h => List.forall_mem_cons.mpr
    ⟨told hf e (List.forall_mem_cons.mp h).1, toldAll hf es (List.forall_mem_cons.mp h).2⟩
end

end Expr

end AlgoFrontEnd
