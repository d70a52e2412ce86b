import AlgoFrontEnd.Proofs.Token.Refusals
import AlgoFrontEnd.Proofs.Token.Runs

/-! Tokens of characters that are put together piece by piece, from the end of a line backwards.
Main statements: one for each kind of piece, saying when it makes which token. -/
namespace AlgoFrontEnd.Token

/-- Characters from a column on have these tokens, in view of the token before them. -/
def Lexes (number : Int) (previous : Option Form) (column : Nat) (cs : List Char)
    (ts : List Token) : Prop :=
  ∃ ps, Cuts column cs ps ∧ ofPieces number previous ps = .ok ts

/-- A word begins with a letter or the low line and goes on with digits as well. -/
def Identifier (word : String) : Prop :=
  ∃ c more, word.toList = c :: more ∧ isNameStart c = true ∧ ∀ x ∈ more, isNameChar x = true

/-- Words that are no names. -/
def reserved : List String :=
  ["int", "float", "bool", "string", "true", "false"] ++ Keyword.all.map (·.word)

/-- What a variable or a function can be called. -/
structure Ordinary (name : String) : Prop where
  identifier : Identifier name
  free : name ∉ reserved

theorem isNameChar_of_isNameStart {c : Char} (h : isNameStart c = true) :
    isNameChar c = true := by
  simp only [isNameStart, isNameChar, Char.isAlphanum, Bool.or_eq_true] at h ⊢
  exact h.imp_left .inl

namespace Identifier
variable {word : String}

theorem toList_ne_nil (h : Identifier word) : word.toList ≠ [] := by
  obtain ⟨c, more, hc, -, -⟩ := h
  simp [hc]

theorem isNameChar (h : Identifier word) : ∀ c ∈ word.toList, isNameChar c = true := by
  obtain ⟨c, more, hc, hs, hm⟩ := h
  rw [hc]
  exact List.forall_mem_cons.mpr ⟨isNameChar_of_isNameStart hs, hm⟩

theorem written (h : Identifier word) {rest : List Char} (he : Ends Token.isNameChar rest) :
    (Piece.word word.toList).Written word.toList rest := by
  obtain ⟨c, more, hc, hs, hm⟩ := h
  rw [hc]
  exact .word hs hm he

theorem of_written {chars span rest : List Char} (h : (Piece.word chars).Written span rest) :
    Identifier (String.ofList chars) := by
  cases h with
  | @word c more _ hc hm _ => exact ⟨c, more, String.toList_ofList, hc, hm⟩

end Identifier

namespace Lexes
variable {number : Int} {previous : Option Form} {column : Nat} {rest : List Char}
  {ts : List Token}

theorem nil : Lexes number previous column [] [] := ⟨[], .nil column, rfl⟩

theorem blank {c : Char} (hc : Text.isBlank c = true)
    (h : Lexes number previous (column + 1) rest ts) :
    Lexes number previous column (c :: rest) ts := by
  obtain ⟨ps, hcut, hps⟩ := h
  exact ⟨ps, .blank hc hcut, hps⟩

theorem mark (m : Mark) (h : Lexes number (some (.mark m)) (column + 1) rest ts) :
    Lexes number previous column (m.char :: rest) (⟨.mark m, ⟨number, column⟩⟩ :: ts) := by
  obtain ⟨ps, hcut, hps⟩ := h
  refine ⟨⟨column, .mark m⟩ :: ps, .piece (.mark m) rfl hcut, ?_⟩
  rw [ofPieces, hps]
  rfl

theorem quoted {inside : List Char} (hi : '"' ∉ inside)
    (h : Lexes number (some (.string (String.ofList inside))) (column + inside.length + 2)
      rest ts) :
    Lexes number previous column ('"' :: (inside ++ '"' :: rest))
      (⟨.string (String.ofList inside), ⟨number, column⟩⟩ :: ts) := by
  obtain ⟨ps, hcut, hps⟩ := h
  have hlen : column + ('"' :: (inside ++ ['"'])).length = column + inside.length + 2 := by
    simp
    omega
  refine ⟨⟨column, .quoted inside⟩ :: ps, ?_, ?_⟩
  · simpa using Cuts.piece (.quoted hi) hlen hcut
  · rw [ofPieces, hps]
    rfl

/-! ### Numerals -/

theorem numeralForm_of_digits {ds : List Char} (hn : ds ≠ [])
    (hd : ∀ c ∈ ds, c.isDigit = true) (column : Nat) :
    numeralForm ds column = ((Number.integer ds).mapError .limit).map .int := by
  have hdot : '.' ∉ ds := fun hm => nomatch hd '.' hm
  have hany : ds.any Char.isDigit = true := by
    obtain ⟨c, hc⟩ := List.exists_mem_of_ne_nil ds hn
    exact List.any_eq_true.mpr ⟨c, hc, hd c hc⟩
  rw [numeralForm, if_pos hany, parts_of_notMem hdot]

theorem digits {ds : List Char} (hn : ds ≠ []) (hd : ∀ c ∈ ds, c.isDigit = true)
    (hlen : ds.length ≤ Number.maxIntegerDigits) (he : Ends isNumeralChar rest)
    (h : Lexes number (some (.int (Number.ofDigits ds))) (column + ds.length) rest ts) :
    Lexes number previous column (ds ++ rest)
      (⟨.int (Number.ofDigits ds), ⟨number, column⟩⟩ :: ts) := by
  obtain ⟨ps, hcut, hps⟩ := h
  have hform : numeralForm ds column = .ok (.int (Number.ofDigits ds)) := by
    have hint : Number.integer ds = .ok (Number.ofDigits ds) := if_pos hlen
    rw [numeralForm_of_digits hn hd, hint]
    rfl
  have hw : (Piece.numeral ds).Written ds rest := by
    cases ds with
    | nil => exact absurd rfl hn
    | cons c more =>
      have hnum : ∀ x ∈ c :: more, isNumeralChar x = true := by
        intro x hx
        simp [isNumeralChar, hd x hx]
      obtain ⟨hc, hm⟩ := List.forall_mem_cons.mp hnum
      exact .numeral hc hm he
  refine ⟨⟨column, .numeral ds⟩ :: ps, .piece hw rfl hcut, ?_⟩
  rw [ofPieces, hform]
  exact bind_eq_ok.mpr ⟨_, rfl, bind_eq_ok.mpr ⟨ts, hps, rfl⟩⟩

theorem toList_toString {value : Int} (h : 0 ≤ value) :
    (toString value).toList = Nat.toDigits 10 value.toNat := by
  obtain ⟨n, rfl⟩ := Int.eq_ofNat_of_zero_le h
  show (toString n).toList = Nat.toDigits 10 n
  rw [Nat.toString_eq_ofList_toDigits, String.toList_ofList]

theorem isDigit_of_mem_toString {value : Int} (h : 0 ≤ value) :
    ∀ c ∈ (toString value).toList, c.isDigit = true := by
  intro c hc
  rw [toList_toString h] at hc
  exact Nat.isDigit_of_mem_toDigits (by decide) (by decide) hc

theorem toList_toString_ne_nil {value : Int} (h : 0 ≤ value) : (toString value).toList ≠ [] := by
  rw [toList_toString h]
  exact Nat.toDigits_ne_nil

/-- The digits of a number are read back as the number. -/
theorem int {value : Int} (h₀ : 0 ≤ value)
    (hlen : (toString value).length ≤ Number.maxIntegerDigits) (he : Ends isNumeralChar rest)
    (h : Lexes number (some (.int value)) (column + (toString value).length) rest ts) :
    Lexes number previous column ((toString value).toList ++ rest)
      (⟨.int value, ⟨number, column⟩⟩ :: ts) := by
  have hvalue : (Number.ofDigits (toString value).toList : Int) = value := by
    rw [ofDigits_eq_ofDigitChars, toList_toString h₀, Nat.ofDigitChars_ten_toDigits,
      Int.toNat_of_nonneg h₀]
  rw [← String.length_toList] at hlen h
  have : Lexes number previous column ((toString value).toList ++ rest) (_ :: ts) :=
    digits (toList_toString_ne_nil h₀) (isDigit_of_mem_toString h₀) hlen he (by rwa [hvalue])
  rwa [hvalue] at this

/-! ### Operators -/

/-- A run that is a single operator. -/
theorem operator {run : List Char} {form : Form} (hn : run ≠ [])
    (hr : ∀ c ∈ run, isOperatorChar c = true) (he : Ends isOperatorChar rest)
    (hs : splitRun number column (wantsOperand previous) run =
      some [⟨form, ⟨number, column⟩⟩])
    (h : Lexes number (some form) (column + run.length) rest ts) :
    Lexes number previous column (run ++ rest) (⟨form, ⟨number, column⟩⟩ :: ts) := by
  obtain ⟨ps, hcut, hps⟩ := h
  have hw : (Piece.operators run).Written run rest := by
    cases run with
    | nil => exact absurd rfl hn
    | cons c more =>
      obtain ⟨hc, hm⟩ := List.forall_mem_cons.mp hr
      exact .operators hc hm he
  refine ⟨⟨column, .operators run⟩ :: ps, .piece hw rfl hcut, ?_⟩
  rw [ofPieces, hs]
  exact bind_eq_ok.mpr ⟨ts, hps, rfl⟩

theorem leadingConnective?_spelling (c : Connective) :
    leadingConnective? c.spelling.toList = some (c, []) := by
  cases c with
  | assign => rfl
  | operate op => cases op <;> rfl

theorem connective (c : Connective)
    (hp : ¬ (wantsOperand previous = true ∧ (c.spelling = "+" ∨ c.spelling = "-")))
    (he : Ends isOperatorChar rest)
    (h : Lexes number (some (.connective c)) (column + c.spelling.length) rest ts) :
    Lexes number previous column (c.spelling.toList ++ rest)
      (⟨.connective c, ⟨number, column⟩⟩ :: ts) := by
  have hchars : ∀ x ∈ c.spelling.toList, isOperatorChar x = true := by
    cases c with
    | assign => exact List.all_eq_true.mp (by decide)
    | operate op => cases op <;> exact List.all_eq_true.mp (by decide)
  have hs : splitRun number column (wantsOperand previous) c.spelling.toList =
      some [⟨.connective c, ⟨number, column⟩⟩] := by
    have hl := longest_of_leadingConnective? (leadingConnective?_spelling c)
    rw [← List.append_nil c.spelling.toList] at hl ⊢
    rw [splitRun_connective hl hp, splitRun]
    rfl
  rw [← String.length_toList] at h
  exact operator (spelling_ne_nil c) hchars he hs h

theorem sign (s : Sign) (hp : wantsOperand previous = true) (he : Ends isOperatorChar rest)
    (h : Lexes number (some (.sign s)) (column + 1) rest ts) :
    Lexes number previous column (s.spelling.toList ++ rest)
      (⟨.sign s, ⟨number, column⟩⟩ :: ts) := by
  have hs : splitRun number column (wantsOperand previous) s.spelling.toList =
      some [⟨.sign s, ⟨number, column⟩⟩] := by
    rw [hp, ← List.append_nil s.spelling.toList, splitRun_sign, splitRun]
    rfl
  cases s with
  | positive => exact operator (by decide) (List.all_eq_true.mp (by decide)) he hs h
  | negate => exact operator (by decide) (List.all_eq_true.mp (by decide)) he hs h

/-! ### Words -/

/-- A word that makes no array type with what follows it makes a token by itself. -/
theorem word {name : String} {form : Form} {ps : List Placed} (hn : Identifier name)
    (ha : Alone (wordForm previous name) ps) (he : Ends isNameChar rest)
    (hcut : Cuts (column + name.length) rest ps)
    (hc : calledForm previous ps (wordForm previous name) = form)
    (hps : ofPieces number (some form) ps = .ok ts) :
    Lexes number previous column (name.toList ++ rest) (⟨form, ⟨number, column⟩⟩ :: ts) := by
  rw [← String.length_toList] at hcut
  refine ⟨⟨column, .word name.toList⟩ :: ps, .piece (hn.written he) rfl hcut, ?_⟩
  rw [ofPieces_word (by rwa [String.ofList_toList]), String.ofList_toList, hc]
  exact bind_eq_ok.mpr ⟨ts, hps, rfl⟩

/-- A word that means a type, with a pair of brackets right behind it. -/
theorem array {name : String} (hn : Identifier name) (hw : wordForm previous name = .typeName name)
    (h : Lexes number (some (.arrayTypeName name)) (column + name.length + 2) rest ts) :
    Lexes number previous column (name.toList ++ '[' :: ']' :: rest)
      (⟨.arrayTypeName name, ⟨number, column⟩⟩ :: ts) := by
  obtain ⟨ps, hcut, hps⟩ := h
  rw [← String.length_toList] at hcut
  have hends : Ends isNameChar ('[' :: ']' :: rest) := by simp [Ends]; decide
  refine ⟨_, .piece (hn.written hends) rfl
    (.piece (.mark .openBracket) rfl (.piece (.mark .closeBracket) rfl hcut)), ?_⟩
  rw [ofPieces_array (by rwa [String.ofList_toList])]
  exact bind_eq_ok.mpr ⟨ts, hps, rfl⟩

/-- A word that means no type is read alone. -/
theorem alone_of_ne {form : Form} {ps : List Placed} (h : ∀ text, form ≠ .typeName text) :
    Alone form ps :=
  fun text _ _ _ hf _ => h text hf

theorem bool (b : Bool) (he : Ends isNameChar rest)
    (h : Lexes number (some (.bool b)) (column + (Form.boolText b).length) rest ts) :
    Lexes number previous column ((Form.boolText b).toList ++ rest)
      (⟨.bool b, ⟨number, column⟩⟩ :: ts) := by
  obtain ⟨ps, hcut, hps⟩ := h
  have hw : wordForm previous (Form.boolText b) = .bool b := by cases b <;> rfl
  have hn : Identifier (Form.boolText b) := by
    cases b
    · exact ⟨'f', "alse".toList, rfl, rfl, List.all_eq_true.mp (by decide)⟩
    · exact ⟨'t', "rue".toList, rfl, rfl, List.all_eq_true.mp (by decide)⟩
  exact word hn (alone_of_ne (by simp [hw])) he hcut (by rw [hw]; rfl) hps

theorem wordForm_ordinary {name : String} (h : Ordinary name)
    (hp : previous ≠ some (.mark .colon)) : wordForm previous name = .name name := by
  have hfree := h.free
  simp only [reserved, List.mem_append, not_or] at hfree
  obtain ⟨hf, hk⟩ := hfree
  have hkey : Keyword.ofWord? name = none := by
    simpa [Keyword.ofWord?] using hk
  simp only [List.mem_cons, not_or] at hf
  simp [wordForm, hkey, hf, hp]

/-- A name is followed by anything but an opening parenthesis. -/
theorem name {text : String} (ht : Ordinary text) (hp : previous ≠ some (.mark .colon))
    (he : Ends isNameChar rest) (hts : ∀ t ∈ ts.head?, t.form ≠ .mark .openParen)
    (h : Lexes number (some (.name text)) (column + text.length) rest ts) :
    Lexes number previous column (text.toList ++ rest) (⟨.name text, ⟨number, column⟩⟩ :: ts) := by
  obtain ⟨ps, hcut, hps⟩ := h
  have hw := wordForm_ordinary ht hp
  have hc : calledForm previous ps (.name text) = .name text := by
    unfold calledForm
    simp only
    split
    · rename_i k more
      rw [ofPieces] at hps
      obtain ⟨us, -, hps⟩ := bind_eq_ok.mp hps
      cases hps
      exact absurd rfl (hts _ rfl)
    · rfl
  exact word ht.identifier (alone_of_ne (by simp [hw])) he hcut (by rw [hw, hc]) hps

/-- A name right before an opening parenthesis is called. -/
theorem call {text : String} (ht : Ordinary text) (hp : previous ≠ some (.mark .colon))
    (hf : previous ≠ some (.keyword .functionWord))
    (h : Lexes number (some (.mark .openParen)) (column + text.length + 1) rest ts) :
    Lexes number previous column (text.toList ++ '(' :: rest)
      (⟨.call text, ⟨number, column⟩⟩ ::
        ⟨.mark .openParen, ⟨number, (column + text.length : Nat)⟩⟩ :: ts) := by
  have hw := wordForm_ordinary ht hp
  obtain ⟨ps, hcut, hps⟩ := h
  have hc : calledForm previous (⟨column + text.length, .mark .openParen⟩ :: ps) (.name text) =
      .call text := by
    simp [calledForm, hf]
  refine word ht.identifier (alone_of_ne (by simp [hw])) (by simp [Ends]; decide)
    (.piece (.mark .openParen) rfl hcut) (by rw [hw, hc]) ?_
  rw [ofPieces]
  exact bind_eq_ok.mpr ⟨ts, hps, rfl⟩

end Lexes

/-- A line that ends in no blank has no break to lose. -/
theorem lineText_of_last {text : String} (h : ∃ before c, text.toList = before ++ [c] ∧
    Text.isBlank c = false) : lineText text = text.toList := by
  obtain ⟨before, c, ht, hc⟩ := h
  have hkept : c ≠ '\r' ∧ c ≠ '\n' := by
    constructor <;> rintro rfl <;> cases hc
  simp [lineText, Text.dropEndWhile, ht, hkept]

end AlgoFrontEnd.Token
