import AlgoFrontEnd.Proofs.Grammar.Phrases
import AlgoFrontEnd.Proofs.Token.Lexing
import AlgoFrontEnd.Tree.Printer

/-! Printed expressions. Main statement: the text of an expression, taken as a line of its own, is
read as the expression. -/
namespace AlgoFrontEnd
variable {α : Type}

/-! ### What can be read back -/

/-- A number that a literal can stand for. -/
def Literal (value : Int) : Prop :=
  0 ≤ value ∧ (toString value).length ≤ Number.maxIntegerDigits

def Place.Readable : Place α → Prop
  | .whole _ name none => Token.Ordinary name
  | .whole _ _ (some _) => False
  | .element _ array offset => Token.Ordinary array ∧ Literal offset

mutual
/-- Expressions without floats and annotations, whose literals and names can be written down. -/
def Expr.Readable : Expr α → Prop
  | .int _ value => Literal value
  | .float _ _ => False
  | .bool _ _ => True
  | .string _ value => '"' ∉ value.toList
  | .array _ elements => Expr.ReadableAll elements
  | .place p => p.Readable
  | .call _ function arguments => Token.Ordinary function ∧ Expr.ReadableAll arguments
  | .binary _ _ left right => left.Readable ∧ right.Readable
  | .sign _ _ operand => operand.Readable
  | .assign _ target value => target.Readable ∧ value.Readable

def Expr.ReadableAll : List (Expr α) → Prop
  | [] => True
  | e :: es => e.Readable ∧ Expr.ReadableAll es
end

namespace Grammar
open Token (Form Lexes wantsOperand)

/-! ### Operands -/

/-- What ends a word and a numeral before it. -/
def Free (rest : List Char) : Prop := Token.Ends (fun c => Token.isNameChar c || c = '.') rest

theorem Free.name {rest : List Char} (h : Free rest) : Token.Ends Token.isNameChar rest := by
  intro c hc
  have := h c hc
  simp at this
  exact this.1

theorem Free.numeral {rest : List Char} (h : Free rest) : Token.Ends Token.isNumeralChar rest := by
  intro c hc
  have := h c hc
  simp [Token.isNameChar, Char.isAlphanum, Token.isNumeralChar] at this ⊢
  exact ⟨this.1.1.2, this.2⟩

/-- Behind such a token a word is a name or called. -/
def Calm (previous : Option Form) : Prop :=
  previous ≠ some (.mark .colon) ∧ previous ≠ some (.keyword .functionWord)

/-- Characters from a column on that stand for an operand with these tokens, whatever can follow
an operand. -/
structure Operand (number : Int) (previous : Option Form) (column : Nat) (cs : List Char)
    (ts : List Token) : Prop where
  first : ∃ c more, cs = c :: more ∧ Token.isOperatorChar c = false
  last : ∃ before c, cs = before ++ [c] ∧ Text.isBlank c = false
  lexes : ∃ form, wantsOperand (some form) = false ∧ ∀ rest us, Free rest →
    (∀ t ∈ us.head?, t.form ≠ .mark .openParen) →
    Lexes number (some form) (column + cs.length) rest us →
    Lexes number previous column (cs ++ rest) (ts ++ us)

/-- The same of characters that a closing mark or a comma must follow. -/
def Closed (number : Int) (previous : Option Form) (column : Nat) (cs : List Char)
    (ts : List Token) : Prop :=
  ∀ (m : Mark) rest us, m ≠ .openParen →
    Lexes number (some (.mark m)) (column + cs.length + 1) rest us →
    Lexes number previous column (cs ++ m.char :: rest)
      (ts ++ ⟨.mark m, ⟨number, (column + cs.length : Nat)⟩⟩ :: us)

variable {number : Int} {previous : Option Form} {column : Nat}

/-- Letters and digits begin an operand and end it. -/
theorem Operand.of_forall {cs : List Char} {ts : List Token} (hn : cs ≠ [])
    (hc : ∀ c ∈ cs, Token.isNameChar c = true)
    (hl : ∃ form, wantsOperand (some form) = false ∧ ∀ rest us, Free rest →
      (∀ t ∈ us.head?, t.form ≠ .mark .openParen) →
      Lexes number (some form) (column + cs.length) rest us →
      Lexes number previous column (cs ++ rest) (ts ++ us)) :
    Operand number previous column cs ts := by
  refine ⟨?_, ?_, hl⟩
  · obtain ⟨c, more, rfl⟩ := List.exists_cons_of_ne_nil hn
    exact ⟨c, more, rfl, (Token.apart_of_isNameChar (hc c (by simp))).1⟩
  · obtain ⟨before, c, rfl⟩ := (List.eq_nil_or_concat cs).resolve_left hn
    exact ⟨before, c, by simp, (Token.apart_of_isNameChar (hc c (by simp))).2⟩

theorem Operand.int {value : Int} (h : Literal value) :
    Operand number previous column (toString value).toList
      [⟨.int value, ⟨number, column⟩⟩] := by
  have hd := Token.Lexes.isDigit_of_mem_toString h.1
  have hchars : ∀ c ∈ (toString value).toList, Token.isNameChar c = true := by
    intro c hc
    simp [Token.isNameChar, Char.isAlphanum, hd c hc]
  refine .of_forall (Token.Lexes.toList_toString_ne_nil h.1) hchars ⟨.int value, rfl, ?_⟩
  intro rest us hr hus hl
  rw [String.length_toList] at hl
  exact .int h.1 h.2 hr.numeral hl

theorem Operand.bool (b : Bool) :
    Operand number previous column (Form.boolText b).toList
      [⟨.bool b, ⟨number, column⟩⟩] := by
  have hchars : ∀ c ∈ (Form.boolText b).toList, Token.isNameChar c = true := by
    cases b <;> exact List.all_eq_true.mp (by decide)
  refine .of_forall (by cases b <;> decide) hchars ⟨.bool b, rfl, ?_⟩
  intro rest us hr hus hl
  rw [String.length_toList] at hl
  exact .bool b hr.name hl

theorem Operand.string {value : String} (h : '"' ∉ value.toList) :
    Operand number previous column ('"' :: (value.toList ++ ['"']))
      [⟨.string value, ⟨number, column⟩⟩] := by
  refine ⟨⟨'"', _, rfl, rfl⟩, ⟨'"' :: value.toList, '"', rfl, rfl⟩, .string value, rfl, ?_⟩
  intro rest us hr hus hl
  have hl : Lexes number (some (.string (String.ofList value.toList)))
      (column + value.toList.length + 2) rest us := by
    rw [String.ofList_toList]
    convert hl using 1
    simp
    omega
  have : Lexes number previous column _ _ := .quoted h hl
  simpa using this

theorem Operand.name {text : String} (h : Token.Ordinary text) (hp : Calm previous) :
    Operand number previous column text.toList [⟨.name text, ⟨number, column⟩⟩] := by
  refine .of_forall h.identifier.toList_ne_nil h.identifier.isNameChar ⟨.name text, rfl, ?_⟩
  intro rest us hr hus hl
  rw [String.length_toList] at hl
  exact .name h hp.1 hr.name hus hl

/-! ### Operands put together -/

theorem Operand.closed {cs : List Char} {ts : List Token}
    (h : Operand number previous column cs ts) : Closed number previous column cs ts := by
  obtain ⟨form, -, hl⟩ := h.lexes
  intro m rest us hm hrest
  refine hl _ _ ?_ ?_ (.mark m hrest)
  · cases m <;> simp [Free, Token.Ends, Mark.char] <;> decide
  · simpa using hm

theorem Closed.nil : Closed number previous column [] [] := by
  intro m rest us _ hrest
  exact .mark m hrest

/-- A pair of marks around an operand. -/
theorem Closed.between {o c : Mark} {cs : List Char} {ts : List Token} (hc : c ≠ .openParen)
    (hw : (Form.mark c).wantsOperand = false)
    (h : Closed number (some (.mark o)) (column + 1) cs ts) :
    Operand number previous column (o.char :: (cs ++ [c.char]))
      (⟨.mark o, ⟨number, column⟩⟩ ::
        (ts ++ [⟨.mark c, ⟨number, (column + 1 + cs.length : Nat)⟩⟩])) := by
  refine ⟨⟨o.char, _, rfl, by cases o <;> rfl⟩, ⟨o.char :: cs, c.char, rfl, Token.isBlank_char c⟩,
    .mark c, hw, ?_⟩
  intro rest us _ _ hl
  have hlen : column + (o.char :: (cs ++ [c.char])).length = column + 1 + cs.length + 1 := by
    simp
    omega
  rw [hlen] at hl
  simpa using Lexes.mark o (h c rest us hc hl)

/-- A name with a pair of marks right behind it. -/
theorem Closed.headed {form : Form} {o c : Mark} {text : String} {cs : List Char}
    {ts : List Token} (hc : c ≠ .openParen) (hw : (Form.mark c).wantsOperand = false)
    (ht : Token.Ordinary text)
    (head : ∀ rest us, Lexes number (some (.mark o)) (column + text.length + 1) rest us →
      Lexes number previous column (text.toList ++ o.char :: rest)
        (⟨form, ⟨number, column⟩⟩ :: ⟨.mark o, ⟨number, (column + text.length : Nat)⟩⟩ :: us))
    (h : Closed number (some (.mark o)) (column + text.length + 1) cs ts) :
    Operand number previous column (text.toList ++ o.char :: (cs ++ [c.char]))
      (⟨form, ⟨number, column⟩⟩ :: ⟨.mark o, ⟨number, (column + text.length : Nat)⟩⟩ ::
        (ts ++ [⟨.mark c, ⟨number, (column + text.length + 1 + cs.length : Nat)⟩⟩])) := by
  obtain ⟨x, more, hx⟩ := List.exists_cons_of_ne_nil ht.identifier.toList_ne_nil
  have hop := (Token.apart_of_isNameChar (ht.identifier.isNameChar x (by simp [hx]))).1
  refine ⟨⟨x, _, by rw [hx]; rfl, hop⟩,
    ⟨text.toList ++ o.char :: cs, c.char, by simp, Token.isBlank_char c⟩, .mark c, hw, ?_⟩
  intro rest us _ _ hl
  have hlen : column + (text.toList ++ o.char :: (cs ++ [c.char])).length =
      column + text.length + 1 + cs.length + 1 := by
    simp [String.length_toList]
    omega
  rw [hlen] at hl
  simpa using head _ _ (h c rest us hc hl)

theorem Closed.call {text : String} {cs : List Char} {ts : List Token}
    (ht : Token.Ordinary text) (hp : Calm previous)
    (h : Closed number (some (.mark .openParen)) (column + text.length + 1) cs ts) :
    Operand number previous column (text.toList ++ '(' :: (cs ++ [')']))
      (⟨.call text, ⟨number, column⟩⟩ ::
        ⟨.mark .openParen, ⟨number, (column + text.length : Nat)⟩⟩ :: (ts ++
          [⟨.mark .closeParen, ⟨number, (column + text.length + 1 + cs.length : Nat)⟩⟩])) :=
  h.headed (c := .closeParen) (by decide) rfl ht fun _ _ hl => .call ht hp.1 hp.2 hl

theorem Closed.index {text : String} {cs : List Char} {ts : List Token}
    (ht : Token.Ordinary text) (hp : Calm previous)
    (h : Closed number (some (.mark .openBracket)) (column + text.length + 1) cs ts) :
    Operand number previous column (text.toList ++ '[' :: (cs ++ [']']))
      (⟨.name text, ⟨number, column⟩⟩ ::
        ⟨.mark .openBracket, ⟨number, (column + text.length : Nat)⟩⟩ :: (ts ++
          [⟨.mark .closeBracket, ⟨number, (column + text.length + 1 + cs.length : Nat)⟩⟩])) :=
  h.headed (c := .closeBracket) (by decide) rfl ht fun _ _ hl =>
    .name ht hp.1 (by simp [Token.Ends]; decide) (by simp) (.mark .openBracket hl)

/-- Two operands with a connective between blanks. -/
theorem Operand.join {c : Connective} {cs ds : List Char} {ts us : List Token}
    (hl : Operand number previous column cs ts)
    (hr : Operand number (some (.connective c))
      (column + cs.length + 1 + c.spelling.length + 1) ds us) :
    Operand number previous column (cs ++ ' ' :: (c.spelling.toList ++ ' ' :: ds))
      (ts ++ ⟨.connective c, ⟨number, (column + cs.length + 1 : Nat)⟩⟩ :: us) := by
  obtain ⟨x, more, hx, hop⟩ := hl.first
  obtain ⟨before, y, hy, hblank⟩ := hr.last
  obtain ⟨form, hw, hleft⟩ := hl.lexes
  obtain ⟨form', hw', hright⟩ := hr.lexes
  refine ⟨⟨x, _, by rw [hx]; rfl, hop⟩,
    ⟨cs ++ ' ' :: (c.spelling.toList ++ ' ' :: before), y, by simp [hy], hblank⟩, form', hw', ?_⟩
  intro rest vs hfree hvs h
  have hlen : column + (cs ++ ' ' :: (c.spelling.toList ++ ' ' :: ds)).length =
      column + cs.length + 1 + c.spelling.length + 1 + ds.length := by
    simp [String.length_toList]
    omega
  rw [hlen] at h
  have h := hright rest vs hfree hvs h
  have hdue : ¬ (wantsOperand (some form) = true ∧ (c.spelling = "+" ∨ c.spelling = "-")) := by
    simp [hw]
  have h := Lexes.connective c hdue (by simp [Token.Ends]; decide) (.blank (c := ' ') rfl h)
  have h := hleft (' ' :: _) _ (by simp [Free, Token.Ends]; decide) (by simp) (.blank rfl h)
  simpa using h

/-- Two operands with a comma between them. -/
theorem Operand.comma {cs ds : List Char} {ts us : List Token}
    (hl : Operand number previous column cs ts)
    (hr : Operand number (some (.mark .comma)) (column + cs.length + 2) ds us) :
    Operand number previous column (cs ++ ',' :: ' ' :: ds)
      (ts ++ ⟨.mark .comma, ⟨number, (column + cs.length : Nat)⟩⟩ :: us) := by
  obtain ⟨x, more, hx, hop⟩ := hl.first
  obtain ⟨before, y, hy, hblank⟩ := hr.last
  obtain ⟨form', hw', hright⟩ := hr.lexes
  refine ⟨⟨x, _, by rw [hx]; rfl, hop⟩,
    ⟨cs ++ ',' :: ' ' :: before, y, by simp [hy], hblank⟩, form', hw', ?_⟩
  intro rest vs hfree hvs h
  have hlen : column + (cs ++ ',' :: ' ' :: ds).length =
      column + cs.length + 2 + ds.length := by
    simp
    omega
  rw [hlen] at h
  have h := hright rest vs hfree hvs h
  have h := hl.closed .comma _ _ (by decide) (.blank (c := ' ') rfl h)
  simpa [Mark.char] using h

/-- A sign right before its operand. -/
theorem Operand.sign {s : Sign} {cs : List Char} {ts : List Token}
    (hp : wantsOperand previous = true)
    (h : Operand number (some (.sign s)) (column + 1) cs ts) :
    Closed number previous column (s.spelling.toList ++ cs)
      (⟨.sign s, ⟨number, column⟩⟩ :: ts) := by
  obtain ⟨x, more, hx, hop⟩ := h.first
  intro m rest us hm hrest
  have hlen : column + (s.spelling.toList ++ cs).length = column + 1 + cs.length := by
    have : s.spelling.toList.length = 1 := by cases s <;> rfl
    rw [List.length_append, this]
    omega
  rw [hlen] at hrest ⊢
  have hends : Token.Ends Token.isOperatorChar (cs ++ m.char :: rest) := by
    rw [hx]
    simpa [Token.Ends] using hop
  have := Lexes.sign s hp hends (h.closed m rest us hm hrest)
  simpa using this

/-! ### Expressions -/

/-- The note of a tree whose positions are left out. -/
def bare (_ : α) : Unit := ()

theorem calm_mark {m : Mark} (h : m ≠ .colon) : Calm (some (.mark m)) :=
  ⟨by simpa using h, by simp⟩

theorem calm_connective (c : Connective) : Calm (some (.connective c)) := ⟨by simp, by simp⟩

theorem calm_sign (s : Sign) : Calm (some (.sign s)) := ⟨by simp, by simp⟩

theorem calm_none : Calm none := ⟨by simp, by simp⟩

theorem precedence_le_primary (op : BinaryOp) : op.precedence + 1 ≤ primaryLevel := by
  cases op <;> decide

/-- A variable or an array element is written as itself. -/
theorem exists_spot (number : Int) (hp : Calm previous) (column : Nat) (p : Place α)
    (h : p.Readable) : ∃ s : Spot false, s.place.map bare = p.map bare ∧
      Operand number previous column p.text.toList s.tokens := by
  cases p with
  | whole n name type =>
    cases type with
    | none => exact ⟨.plain name ⟨number, column⟩, rfl, .name h hp⟩
    | some type => exact h.elim
  | element n array offset =>
    have hi : Closed number (some (.mark .openBracket)) (column + array.length + 1) _ _ :=
      (Operand.int h.2).closed
    have hop := hi.index h.1 hp
    have : (Place.text (.element n array offset)).toList = array.toList ++
        '[' :: ((toString offset).toList ++ [']']) := by
      simp [Place.text, toString]
    rw [this]
    refine ⟨.element array offset ⟨number, column⟩ ⟨number, (column + array.length : Nat)⟩
      ⟨number, (column + array.length + 1 : Nat)⟩
      ⟨number, (column + array.length + 1 + (toString offset).toList.length : Nat)⟩, rfl, ?_⟩
    rw [Spot.tokens]
    exact hop

theorem exists_parens (previous : Option Form) {cs : List Char} {n : Nat} (d : Phrase false n)
    (h : Closed number (some (.mark .openParen)) (column + 1) cs d.tokens) :
    ∃ p : Phrase false primaryLevel, p.tree = d.tree ∧
      Operand number previous column ('(' :: (cs ++ [')'])) p.tokens := by
  obtain ⟨d', ht, he⟩ := d.exists_looser (Nat.zero_le n)
  rw [← ht] at h
  have : Operand number previous column ('(' :: (cs ++ [')'])) _ :=
    h.between (c := .closeParen) (by decide) rfl
  refine ⟨.parens ⟨number, column⟩ ⟨number, (column + 1 + cs.length : Nat)⟩ d', ?_, ?_⟩
  · rw [Phrase.tree, he]
  · rw [Phrase.tokens, List.cons_append]
    exact this

/-- Between a pair of marks there may be nothing at all. -/
theorem exists_items {es : List (Expr α)}
    (h : es ≠ [] → ∃ d : Sequence, d.trees.map (Expr.map bare) = es.map (Expr.map bare) ∧
      Operand number previous column (", ".intercalate (Expr.texts es)).toList d.tokens) :
    ∃ d : Items, d.trees.map (Expr.map bare) = es.map (Expr.map bare) ∧
      Closed number previous column (", ".intercalate (Expr.texts es)).toList d.tokens := by
  cases es with
  | nil => exact ⟨.none, rfl, .nil⟩
  | cons e es =>
    obtain ⟨d, hd, hop⟩ := h (List.cons_ne_nil e es)
    exact ⟨.some d, hd, hop.closed⟩

mutual
/-- An expression is written as a phrase that stands wherever an operand can. -/
theorem exists_phrase (number : Int) {previous : Option Form} (hp : Calm previous)
    (column : Nat) : ∀ e : Expr α, e.Readable →
      ∃ d : Phrase false primaryLevel, d.tree.map bare = e.map bare ∧
        Operand number previous column e.text.toList d.tokens
  | .int _ value, h => ⟨.int value ⟨number, column⟩, rfl, .int h⟩
  | .bool _ b, _ => ⟨.bool b ⟨number, column⟩, rfl, .bool b⟩
  | .string _ value, h => by
    refine ⟨.string value ⟨number, column⟩, rfl, ?_⟩
    have : (Expr.text (.string () value)).toList = '"' :: (value.toList ++ ['"']) := by
      simp [Expr.text]
    exact this ▸ .string h
  | .place p, h => by
    obtain ⟨s, hs, hop⟩ := exists_spot number hp column p h
    exact ⟨.spot s, congrArg Expr.place hs, hop⟩
  | .array n es, h => by
    obtain ⟨d, hd, hc⟩ := exists_items
      (exists_sequence number (calm_mark (m := .openBracket) (by decide)) (column + 1) es h)
    have hop : Operand number previous column ('[' :: (_ ++ [']'])) _ :=
      hc.between (c := .closeBracket) (by decide) rfl
    have : (Expr.text (.array n es)).toList =
        '[' :: ((", ".intercalate (Expr.texts es)).toList ++ [']']) := by
      simp [Expr.text]
    refine ⟨.array ⟨number, column⟩ ⟨number, (column + 1 +
      (", ".intercalate (Expr.texts es)).toList.length : Nat)⟩ d, ?_, ?_⟩
    · simp [Phrase.tree, Expr.map, Expr.mapAll_eq_map, hd, bare]
    · rw [this, Phrase.tokens, List.cons_append]
      exact hop
  | .call n function es, h => by
    obtain ⟨d, hd, hc⟩ := exists_items
      (exists_sequence number (calm_mark (m := .openParen) (by decide))
        (column + function.length + 1) es h.2)
    have hop := hc.call h.1 hp
    have : (Expr.text (.call n function es)).toList = function.toList ++
        '(' :: ((", ".intercalate (Expr.texts es)).toList ++ [')']) := by
      simp [Expr.text]
    refine ⟨.call function ⟨number, column⟩ ⟨number, (column + function.length : Nat)⟩
      ⟨number, (column + function.length + 1 +
        (", ".intercalate (Expr.texts es)).toList.length : Nat)⟩ d, ?_, ?_⟩
    · simp [Phrase.tree, Expr.map, Expr.mapAll_eq_map, hd, bare]
    · rw [this, Phrase.tokens, List.cons_append, List.cons_append]
      exact hop
  | .binary n op left right, h => by
    obtain ⟨l, hl, hleft⟩ := exists_phrase number (calm_mark (m := .openParen) (by decide))
      (column + 1) left h.1
    obtain ⟨r, hr, hright⟩ := exists_phrase number (calm_connective (.operate op))
      (column + 1 + left.text.toList.length + 1 + op.spelling.length + 1) right h.2
    obtain ⟨l', hlt, hle⟩ := l.exists_looser (Nat.le_of_succ_le (precedence_le_primary op))
    obtain ⟨r', hrt, hre⟩ := r.exists_looser (precedence_le_primary op)
    rw [← hlt] at hleft
    rw [← hrt] at hright
    have hop := (hleft.join (c := .operate op) hright).closed
    obtain ⟨d, hd, hop⟩ := exists_parens previous
      (.binary op ⟨number, (column + 1 + left.text.toList.length + 1 : Nat)⟩ l' r')
      (by rwa [Phrase.tokens])
    have : (Expr.text (.binary n op left right)).toList = '(' :: ((left.text.toList ++
        ' ' :: (op.spelling.toList ++ ' ' :: right.text.toList)) ++ [')']) := by
      simp [Expr.text, toString]
    rw [this]
    exact ⟨d, by simp [hd, Phrase.tree, hle, hre, Expr.map, hl, hr, bare], hop⟩
  | .sign n s operand, h => by
    obtain ⟨d, hd, hop⟩ := exists_phrase number (calm_sign s) (column + 1 + 1) operand h
    obtain ⟨d', hdt, hde⟩ := d.exists_looser (n := Sign.precedence) (by decide)
    rw [← hdt] at hop
    have hop : Closed number (some (.mark .openParen)) (column + 1) _ _ := hop.sign rfl
    obtain ⟨d'', hd'', hop⟩ := exists_parens previous
      (.sign s ⟨number, (column + 1 : Nat)⟩ d') (by rwa [Phrase.tokens])
    have : (Expr.text (.sign n s operand)).toList =
        '(' :: ((s.spelling.toList ++ operand.text.toList) ++ [')']) := by
      simp [Expr.text, toString]
    rw [this]
    exact ⟨d'', by simp [hd'', Phrase.tree, hde, Expr.map, hd, bare], hop⟩
  | .assign n target value, h => by
    obtain ⟨s, hs, hleft⟩ := exists_spot number (calm_mark (m := .openParen) (by decide))
      (column + 1) target h.1
    obtain ⟨r, hr, hright⟩ := exists_phrase number (calm_connective .assign)
      (column + 1 + target.text.toList.length + 1 + Connective.assign.spelling.length + 1) value h.2
    obtain ⟨r', hrt, hre⟩ := r.exists_looser (n := 1) (by decide)
    rw [← hrt] at hright
    have hop := (hleft.join hright).closed
    obtain ⟨d, hd, hop⟩ := exists_parens previous
      (.assign ⟨number, (column + 1 + target.text.toList.length + 1 : Nat)⟩ (.spot s) r')
      (by rwa [Phrase.tokens, Target.tokens])
    have : (Expr.text (.assign n target value)).toList = '(' :: ((target.text.toList ++
        ' ' :: (Connective.assign.spelling.toList ++ ' ' :: value.text.toList)) ++ [')']) := by
      simp [Expr.text, Connective.spelling, toString]
    rw [this]
    exact ⟨d, by simp [hd, Phrase.tree, Target.place, hre, Expr.map, hs, hr, bare], hop⟩

/-- Expressions are written with commas between them. -/
theorem exists_sequence (number : Int) {previous : Option Form} (hp : Calm previous)
    (column : Nat) : ∀ es : List (Expr α), Expr.ReadableAll es → es ≠ [] →
      ∃ d : Sequence, d.trees.map (Expr.map bare) = es.map (Expr.map bare) ∧
        Operand number previous column (", ".intercalate (Expr.texts es)).toList d.tokens
  | [], _, hn => absurd rfl hn
  | [e], h, _ => by
    obtain ⟨d, hd, hop⟩ := exists_phrase number hp column e h.1
    obtain ⟨d', hdt, hde⟩ := d.exists_looser (Nat.zero_le _)
    refine ⟨.one d', by simp [Sequence.trees, hde, hd], ?_⟩
    have : (", ".intercalate (Expr.texts [e])).toList = e.text.toList := by
      simp [Expr.texts]
    rw [this, Sequence.tokens, hdt]
    exact hop
  | e :: e' :: es, h, _ => by
    obtain ⟨d, hd, hop⟩ := exists_phrase number hp column e h.1
    obtain ⟨d', hdt, hde⟩ := d.exists_looser (Nat.zero_le _)
    obtain ⟨ds, hds, hops⟩ := exists_sequence number (calm_mark (m := .comma) (by decide))
      (column + e.text.toList.length + 2) (e' :: es) h.2 (List.cons_ne_nil _ _)
    refine ⟨.more d' ⟨number, (column + e.text.toList.length : Nat)⟩ ds, ?_, ?_⟩
    · simpa [Sequence.trees, hde, hd] using hds
    · have : (", ".intercalate (Expr.texts (e :: e' :: es))).toList = e.text.toList ++
          ',' :: ' ' :: (", ".intercalate (Expr.texts (e' :: es))).toList := by
        simp [Expr.texts, String.toList_intercalate]
      rw [this, Sequence.tokens, hdt]
      exact hop.comma hops
end

end Grammar

/-- The text of an expression, as a line of its own, is read back as the expression. -/
theorem text_read_back (e : Expr α) (h : e.Readable) :
    ∃ tokens p, Token.ofLines [e.text] = .ok tokens ∧ Grammar.program tokens = .ok [.expr p] ∧
      p.map (fun _ => ()) = e.map (fun _ => ()) := by
  obtain ⟨d, hd, hop⟩ := Grammar.exists_phrase 1 Grammar.calm_none 1 e h
  obtain ⟨d', hdt, hde⟩ := d.exists_looser (Nat.zero_le _)
  obtain ⟨form, -, hl⟩ := hop.lexes
  obtain ⟨ps, hcut, hps⟩ := hl [] [] (by simp [Grammar.Free, Token.Ends]) (by simp) .nil
  rw [List.append_nil] at hcut hps
  let stop : Position := ⟨1, e.text.toList.length + 1⟩
  have hline : Token.ofLine 1 e.text.toList = .ok (d.tokens ++ [⟨.endLine, stop⟩]) :=
    Token.ofLine_eq_ok_iff.mpr ⟨ps, d.tokens, hcut, hps, rfl⟩
  refine ⟨d.tokens ++ [⟨.endLine, stop⟩], d.tree, ?_, ?_, hd⟩
  · rw [Token.ofLines, Token.ofLinesFrom, Token.lineText_of_last hop.last, hline]
    simp [Token.ofLinesFrom, Except.mapError, bind, Except.bind, pure, Except.pure]
  · rw [← hdt, ← hde]
    exact Grammar.program_phrase d' stop

/-- An assignment to an element, with a call, an array, a text, a difference and a sign. -/
def nestedExpression : Expr Unit :=
  .assign () (.element () "xs" 3)
    (.binary () .subtract
      (.call () "f" [.array () [.int () 10, .bool () true], .string () "a, b"])
      (.sign () .negate (.place (.whole () "x1" none))))

theorem nestedExpression_read_back :
    nestedExpression.text = "(xs[3] <- (f([10, true], \"a, b\") - (-x1)))" ∧
    nestedExpression.Readable ∧
    ∃ tokens p, Token.ofLines [nestedExpression.text] = .ok tokens ∧
      Grammar.program tokens = .ok [.expr p] ∧
      p.map (fun _ => ()) = nestedExpression.map (fun _ => ()) := by
  have hxs : Token.Ordinary "xs" :=
    ⟨⟨'x', ['s'], rfl, rfl, List.all_eq_true.mp (by decide)⟩, by decide⟩
  have hx1 : Token.Ordinary "x1" :=
    ⟨⟨'x', ['1'], rfl, rfl, List.all_eq_true.mp (by decide)⟩, by decide⟩
  have hf : Token.Ordinary "f" := ⟨⟨'f', [], rfl, rfl, List.forall_mem_nil _⟩, by decide⟩
  have hten : Literal 10 := ⟨by decide, by decide +kernel⟩
  have hthree : Literal 3 := ⟨by decide, by decide +kernel⟩
  have hplain : '"' ∉ "a, b".toList := by decide +kernel
  have h : nestedExpression.Readable :=
    ⟨⟨hxs, hthree⟩, ⟨hf, ⟨hten, trivial, trivial⟩, hplain, trivial⟩, hx1⟩
  exact ⟨by decide +kernel, h, text_read_back nestedExpression h⟩

end AlgoFrontEnd
