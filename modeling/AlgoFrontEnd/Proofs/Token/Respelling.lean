import AlgoFrontEnd.Proofs.Token.Lexing
import Mathlib.Data.Nat.Digits.Defs

/-! Tokens written down again. Main statement: the texts of the tokens of a line, with single spaces
between them, are a line with the same tokens. -/
namespace AlgoFrontEnd.Token

/-- The texts of tokens but those that end lines, with single spaces between them. -/
def respelling (ts : List Token) : String :=
  " ".intercalate ((ts.filter (·.form ≠ .endLine)).map (·.form.text))

/-- The texts of tokens, with a space before each of them. -/
def trail (ts : List Token) : List Char := ts.flatMap fun t => ' ' :: t.form.text.toList

/-- Characters that end in no blank. -/
def Firm (cs : List Char) : Prop := ∃ before c, cs = before ++ [c] ∧ Text.isBlank c = false

/-- Nothing follows, or a space. -/
def Spaced (rest : List Char) : Prop := ∀ c ∈ rest.head?, c = ' '

/-- Tokens whose texts, with a space before each of them, are read as tokens of the same forms
behind this one. -/
structure Respelled (number : Int) (previous : Option Form) (ts : List Token) : Prop where
  plain : ∀ t ∈ ts, t.form ≠ .endLine ∧ Firm t.form.text.toList
  lexes : ∀ column, ∃ us, Lexes number previous column (trail ts) us ∧
    us.map (·.form) = ts.map (·.form)

/-! ### Marks ahead

What a word is read as depends on the marks behind it, and spaces between pieces do not count. -/

/-- The marks that forms begin with. -/
def leadingMarks : List Form → List Mark
  | .mark m :: forms => m :: leadingMarks forms
  | _ => []

/-- The marks that pieces begin with. -/
def marksAhead : List Placed → List Mark
  | ⟨_, .mark m⟩ :: ps => m :: marksAhead ps
  | _ => []

theorem leadingMarks_cons {form : Form} (h : ∀ m, form ≠ .mark m) (forms : List Form) :
    leadingMarks (form :: forms) = [] := by
  cases form with
  | mark m => exact absurd rfl (h m)
  | _ => rfl

/-- The marks ahead are the same for pieces and for what is read from them. -/
theorem leadingMarks_of_ofPieces {number : Int} {previous : Option Form} {ps : List Placed}
    {ts : List Token} (h : ofPieces number previous ps = .ok ts) (hf : ∀ q ∈ ps, q.Filled) :
    leadingMarks (ts.map (·.form)) = marksAhead ps := by
  induction ps generalizing previous ts with
  | nil =>
    cases h
    rfl
  | cons q ps ih =>
    obtain ⟨column, piece⟩ := q
    by_cases hq : ∃ m, piece = .mark m
    · obtain ⟨m, rfl⟩ := hq
      rw [ofPieces] at h
      obtain ⟨us, hus, h⟩ := bind_eq_ok.mp h
      cases h
      exact congrArg (m :: ·) (ih hus (List.forall_mem_cons.mp hf).2)
    · have hnone : marksAhead (⟨column, piece⟩ :: ps) = [] := by
        cases piece with
        | mark m => exact absurd ⟨m, rfl⟩ hq
        | _ => rfl
      rw [hnone]
      cases ts with
      | nil => rfl
      | cons t ts =>
        -- only a mark is read as a mark
        refine leadingMarks_cons (fun m ht => hq ?_) _
        have hend : t :: ts ++ [⟨.endLine, ⟨number, 0⟩⟩] = t :: (ts ++ _) := rfl
        obtain ⟨c, rest, ts', he, -⟩ := mark_of_ofPieces h hf rfl hend ht
        cases he
        exact ⟨m, rfl⟩

section
variable {previous : Option Form} {ps qs : List Placed}

/-- Whether a name is called is decided by the marks ahead. -/
theorem calledForm_congr (h : marksAhead ps = marksAhead qs) (form : Form) :
    calledForm previous ps form = calledForm previous qs form := by
  have opens (ps : List Placed) (text : String) : calledForm previous ps (.name text) =
      if (marksAhead ps).head? = some .openParen ∧ previous ≠ some (.keyword .functionWord)
        then .call text else .name text := by
    cases ps with
    | nil => rfl
    | cons q ps =>
      obtain ⟨column, piece⟩ := q
      cases piece with
      | mark m => cases m <;> simp [calledForm, marksAhead]
      | _ => rfl
  cases form with
  | name text => rw [opens, opens, h]
  | _ => rfl

/-- Whether a word makes an array type is decided by the marks ahead. -/
theorem Alone.congr {form : Form} (h : Alone form ps) (he : marksAhead ps = marksAhead qs) :
    Alone form qs := by
  rintro text c₁ c₂ rest hf rfl
  match ps with
  | [] => cases he
  | ⟨k₁, .mark m⟩ :: ps =>
    rw [marksAhead, marksAhead, marksAhead, List.cons.injEq] at he
    obtain ⟨rfl, he⟩ := he
    match ps with
    | [] => cases he
    | ⟨k₂, .mark m'⟩ :: ps =>
      obtain ⟨rfl, -⟩ := List.cons.inj he
      exact h text k₁ k₂ ps hf rfl

end

/-! ### Words and numbers -/

theorem Firm.of_forall {cs : List Char} (hn : cs ≠ []) (hc : ∀ c ∈ cs, isNameChar c = true) :
    Firm cs := by
  obtain ⟨before, c, rfl⟩ := (List.eq_nil_or_concat cs).resolve_left hn
  exact ⟨before, c, by simp, (apart_of_isNameChar (hc c (by simp))).2⟩

theorem Firm.spelling (c : Connective) : Firm c.spelling.toList := by
  cases c with
  | assign => exact ⟨['<'], '-', rfl, rfl⟩
  | operate op =>
    cases op with
    | equal => exact ⟨['='], '=', rfl, rfl⟩
    | notEqual => exact ⟨['!'], '=', rfl, rfl⟩
    | lessEq => exact ⟨['<'], '=', rfl, rfl⟩
    | greaterEq => exact ⟨['>'], '=', rfl, rfl⟩
    | _ => exact ⟨[], _, rfl, rfl⟩

/-- A word is the text of what is read from it. -/
theorem text_of_word (previous : Option Form) (following : List Placed) (chars : List Char) :
    (calledForm previous following (wordForm previous (String.ofList chars))).text =
      String.ofList chars := by
  have hw : (calledForm previous following (wordForm previous (String.ofList chars))).Written
      chars [] := written_calledForm written_of_wordForm
  have hr := wordRead previous following (String.ofList chars)
  generalize calledForm previous following _ = form at hw hr
  cases hr <;> exact String.toList_injective (hw.symm.trans String.toList_ofList.symm)

theorem ofDigits_lt {ds : List Char} (h : ∀ c ∈ ds, c.isDigit = true) :
    Number.ofDigits ds < 10 ^ ds.length := by
  induction ds using List.reverseRecOn with
  | nil => decide
  | append_singleton ds c ih =>
    rw [List.forall_mem_append, List.forall_mem_singleton] at h
    have hds := ih h.1
    have hc : Number.digitValue c < 10 := by
      have hdigit := h.2
      simp only [Char.isDigit, Bool.and_eq_true, decide_eq_true_eq,
        UInt32.le_iff_toNat_le] at hdigit
      have hnine : '9'.val.toNat = '0'.toNat + 9 := rfl
      have hval : c.val.toNat = c.toNat := rfl
      rw [Number.digitValue]
      omega
    rw [Number.ofDigits, List.foldl_append, List.length_append, List.length_singleton, Nat.pow_succ]
    show Number.ofDigits ds * 10 + Number.digitValue c < _
    omega

/-- A whole number that is read can be written and read again. -/
theorem int_of_numeralForm {chars : List Char} {column : Nat} {value : Int}
    (hc : ∀ c ∈ chars, isNumeralChar c = true) (h : numeralForm chars column = .ok (.int value)) :
    0 ≤ value ∧ (toString value).length ≤ Number.maxIntegerDigits := by
  have hends : Ends isNumeralChar [] := nofun
  obtain ⟨hchars, hd, -, -⟩ := written_of_numeralForm hc hends h
  rw [Lexes.numeralForm_of_digits hchars hd] at h
  obtain ⟨n, hn, hv⟩ := map_eq_ok.mp h
  cases hv
  rw [mapError_eq_ok, Number.integer] at hn
  split at hn
  · cases hn
    have hlen : (toString (Number.ofDigits chars : Int)).length ≤ chars.length := by
      rw [← String.length_toList, Lexes.toList_toString (Int.natCast_nonneg _), Int.toNat_natCast]
      exact Nat.toDigits_length _ _ _ (List.length_pos_iff.mpr hchars) (ofDigits_lt hd)
    exact ⟨Int.natCast_nonneg _, hlen.trans ‹_›⟩
  · cases hn

/-! ### Tokens one by one -/

theorem ends_of_spaced {continues : Char → Bool} {rest : List Char} (h : Spaced rest)
    (hs : continues ' ' = false) : Ends continues rest := by
  intro c hc
  rwa [h c hc]

theorem spaced_trail (ts : List Token) : Spaced (trail ts) := by
  cases ts with
  | nil => nofun
  | cons t ts =>
    intro c hc
    exact (Option.some.inj hc).symm

namespace Respelled
variable {number : Int} {previous : Option Form} {ts : List Token}

theorem nil : Respelled number previous [] :=
  ⟨List.forall_mem_nil _, fun _ => ⟨[], .nil, rfl⟩⟩

/-- A token in front of others, if its text is read as it in front of a space and the others. -/
theorem cons {form : Form} (position : Position) (hp : form ≠ .endLine)
    (hf : Firm form.text.toList)
    (h : ∀ column rest us, Spaced rest → us.map (·.form) = ts.map (·.form) →
      Lexes number (some form) (column + form.text.length) rest us →
        Lexes number previous column (form.text.toList ++ rest) (⟨form, ⟨number, column⟩⟩ :: us))
    (hts : Respelled number (some form) ts) :
    Respelled number previous (⟨form, position⟩ :: ts) := by
  refine ⟨List.forall_mem_cons.mpr ⟨⟨hp, hf⟩, hts.plain⟩, fun column => ?_⟩
  obtain ⟨us, hus, hforms⟩ := hts.lexes (column + 1 + form.text.length)
  refine ⟨_, .blank rfl (h (column + 1) (trail ts) us (spaced_trail ts) hforms hus), ?_⟩
  rw [List.map_cons, List.map_cons, hforms]

theorem mark (m : Mark) (position : Position) (hts : Respelled number (some (.mark m)) ts) :
    Respelled number previous (⟨.mark m, position⟩ :: ts) := by
  refine hts.cons position (by simp) ⟨[], m.char, by simp [Form.text], isBlank_char m⟩ ?_
  intro column rest us _ _ h
  simpa [Form.text] using Lexes.mark m (by simpa [Form.text] using h)

theorem string {inside : List Char} (hi : '"' ∉ inside) (position : Position)
    (hts : Respelled number (some (.string (String.ofList inside))) ts) :
    Respelled number previous (⟨.string (String.ofList inside), position⟩ :: ts) := by
  refine hts.cons position (by simp) ⟨'"' :: inside, '"', by simp [Form.text], rfl⟩ ?_
  intro column rest us _ _ h
  have hlen : column + (Form.string (String.ofList inside)).text.length =
      column + inside.length + 2 := by
    rw [← String.length_toList]
    simp [Form.text]
    omega
  rw [hlen] at h
  simpa [Form.text] using Lexes.quoted hi h

theorem int {value : Int} (h₀ : 0 ≤ value)
    (hlen : (toString value).length ≤ Number.maxIntegerDigits) (position : Position)
    (hts : Respelled number (some (.int value)) ts) :
    Respelled number previous (⟨.int value, position⟩ :: ts) := by
  have hchars : ∀ c ∈ (toString value).toList, isNameChar c = true := by
    intro c hc
    simp [isNameChar, Char.isAlphanum, Lexes.isDigit_of_mem_toString h₀ c hc]
  refine hts.cons position (by simp) (.of_forall (Lexes.toList_toString_ne_nil h₀) hchars) ?_
  intro column rest us hr _ h
  exact .int h₀ hlen (ends_of_spaced hr rfl) h

theorem sign (s : Sign) (hp : wantsOperand previous = true) (position : Position)
    (hts : Respelled number (some (.sign s)) ts) :
    Respelled number previous (⟨.sign s, position⟩ :: ts) := by
  refine hts.cons position (by simp) (by cases s <;> exact ⟨[], _, rfl, rfl⟩) ?_
  intro column rest us hr _ h
  rw [Form.text, length_sign] at h
  exact .sign s hp (ends_of_spaced hr rfl) h

theorem connective (c : Connective)
    (hp : ¬ (wantsOperand previous = true ∧ (c.spelling = "+" ∨ c.spelling = "-")))
    (position : Position) (hts : Respelled number (some (.connective c)) ts) :
    Respelled number previous (⟨.connective c, position⟩ :: ts) := by
  refine hts.cons position (by simp) (.spelling c) ?_
  intro column rest us hr _ h
  exact .connective c hp (ends_of_spaced hr rfl) h

/-- Every operator of a run can stand by itself. -/
theorem run {line : Int} {run : List Char} {operators : List Token} {column : Nat}
    {later : List Token} (h : RunOf line column (wantsOperand previous) run operators)
    (hts : Respelled number (operators.getLast?.map (·.form) <|> previous) later) :
    Respelled number previous (operators ++ later) := by
  induction operators generalizing previous run column with
  | nil => exact hts
  | cons t operators ih =>
    obtain ⟨form, position⟩ := t
    obtain ⟨rest, -, -, -, hop, hsign, hrest⟩ := runOf_cons.mp h
    have hlast : ((⟨form, position⟩ :: operators : List Token).getLast?.map (·.form) <|> previous) =
        (operators.getLast?.map (·.form) <|> some form) := by
      rw [List.getLast?_cons]
      cases operators.getLast? <;> rfl
    rw [hlast] at hts
    rcases hop with ⟨s, rfl⟩ | ⟨c, rfl⟩
    · exact (ih hrest hts).sign s (hsign.mp ⟨s, rfl⟩).1 position
    · exact (ih hrest hts).connective c (by simpa [Form.IsSign, Form.text] using hsign) position

/-- A word is read again as it was, if the same marks are ahead of it. -/
theorem word {chars : List Char} {following : List Placed}
    (hn : Identifier (String.ofList chars))
    (ha : Alone (wordForm previous (String.ofList chars)) following)
    (hm : leadingMarks (ts.map (·.form)) = marksAhead following) (position : Position)
    (hts : Respelled number
      (some (calledForm previous following (wordForm previous (String.ofList chars)))) ts) :
    Respelled number previous
      (⟨calledForm previous following (wordForm previous (String.ofList chars)), position⟩ ::
        ts) := by
  have hr := wordRead previous following (String.ofList chars)
  have hplain : calledForm previous following (wordForm previous (String.ofList chars)) ≠
      .endLine := by
    intro he
    rw [he] at hr
    cases hr
  refine hts.cons position hplain ?_ ?_
  · rw [text_of_word]
    exact .of_forall hn.toList_ne_nil hn.isNameChar
  · intro column rest us hrest hforms h
    rw [text_of_word] at h ⊢
    obtain ⟨ps, hcut, hps⟩ := h
    have hmarks : marksAhead following = marksAhead ps := by
      rw [← hm, ← hforms, leadingMarks_of_ofPieces hps (filled_of_cuts hcut)]
    exact .word hn (ha.congr hmarks) (ends_of_spaced hrest rfl) hcut
      (calledForm_congr hmarks.symm _) hps

/-- An array type is written without a space before its brackets. -/
theorem array {chars : List Char} {text : String} (hn : Identifier (String.ofList chars))
    (hw : wordForm previous (String.ofList chars) = .typeName text) (position : Position)
    (hts : Respelled number (some (.arrayTypeName text)) ts) :
    Respelled number previous (⟨.arrayTypeName text, position⟩ :: ts) := by
  have htext : text = String.ofList chars := by
    have := text_of_word previous [] chars
    rwa [hw] at this
  refine hts.cons position (by simp) ⟨text.toList ++ ['['], ']', by simp [Form.text], rfl⟩ ?_
  intro column rest us hrest _ h
  rw [← htext] at hn hw
  have hlen : column + (Form.arrayTypeName text).text.length = column + text.length + 2 := by
    rw [← String.length_toList, ← String.length_toList]
    simp [Form.text]
    omega
  rw [hlen] at h
  simpa [Form.text] using Lexes.array hn hw h

end Respelled

/-! ### Lines -/

/-- The pieces of a line are read again from the tokens that are read from them. -/
theorem respelled_of_ofPieces {line number : Int} {previous : Option Form} {column : Nat}
    {cs : List Char} {ps : List Placed} {ts : List Token} (hc : Cuts column cs ps)
    (h : ofPieces line previous ps = .ok ts) (hf : ∀ t ∈ ts, ∀ x, t.form ≠ .float x) :
    Respelled number previous ts := by
  fun_induction ofPieces line previous ps generalizing column cs ts with
  | case1 =>
    cases h
    exact .nil
  | case2 previous k chars text k₁ k₂ rest hw form =>
    rename_i ih
    obtain ⟨us, hus, h⟩ := bind_eq_ok.mp h
    cases h
    obtain ⟨gap, span, cs₁, -, -, -, hword, hc⟩ := hc.cons_inv
    obtain ⟨gap₁, span₁, cs₂, -, -, -, -, hc⟩ := hc.cons_inv
    obtain ⟨gap₂, span₂, cs₃, -, -, -, -, hc⟩ := hc.cons_inv
    exact .array (.of_written hword) hw _ (ih hc hus (List.forall_mem_cons.mp hf).2)
  | case3 previous k chars rest ha form =>
    rename_i ih
    obtain ⟨us, hus, h⟩ := bind_eq_ok.mp h
    cases h
    obtain ⟨gap, span, cs₁, -, -, -, hword, hc⟩ := hc.cons_inv
    exact .word (.of_written hword) ha (leadingMarks_of_ofPieces hus (filled_of_cuts hc)) _
      (ih hc hus (List.forall_mem_cons.mp hf).2)
  | case4 previous k chars rest tokens hs ih =>
    obtain ⟨us, hus, h⟩ := bind_eq_ok.mp h
    cases h
    obtain ⟨gap, span, cs₁, -, -, -, -, hc⟩ := hc.cons_inv
    exact .run (runOf_of_splitRun hs) (ih hc hus (List.forall_mem_append.mp hf).2)
  | case5 => cases h
  | case6 previous k chars rest ih =>
    obtain ⟨form, hform, h⟩ := bind_eq_ok.mp h
    obtain ⟨us, hus, h⟩ := bind_eq_ok.mp h
    cases h
    obtain ⟨hfirst, hf⟩ := List.forall_mem_cons.mp hf
    obtain ⟨gap, span, cs₁, -, -, -, hw, hc⟩ := hc.cons_inv
    have hts := ih form hc hus hf
    rcases numeralForm_cases hform with ⟨n, rfl⟩ | ⟨x, rfl⟩
    · cases hw with
      | numeral hx hm _ =>
        obtain ⟨h₀, hlen⟩ := int_of_numeralForm (List.forall_mem_cons.mpr ⟨hx, hm⟩) hform
        exact .int h₀ hlen _ hts
    · exact absurd rfl (hfirst x)
  | case7 previous k chars rest form =>
    rename_i ih
    obtain ⟨us, hus, h⟩ := bind_eq_ok.mp h
    cases h
    obtain ⟨gap, span, cs₁, -, -, -, hw, hc⟩ := hc.cons_inv
    cases hw with
    | quoted hi => exact .string hi _ (ih hc hus (List.forall_mem_cons.mp hf).2)
  | case8 previous k m rest ih =>
    obtain ⟨us, hus, h⟩ := bind_eq_ok.mp h
    cases h
    obtain ⟨gap, span, cs₁, -, -, -, -, hc⟩ := hc.cons_inv
    exact .mark m _ (ih hc hus (List.forall_mem_cons.mp hf).2)

theorem Firm.append_trail {cs : List Char} {ts : List Token} (h : Firm cs)
    (hts : ∀ t ∈ ts, Firm t.form.text.toList) : Firm (cs ++ trail ts) := by
  induction ts generalizing cs with
  | nil => rwa [trail, List.flatMap_nil, List.append_nil]
  | cons t ts ih =>
    obtain ⟨⟨before, c, ht, hc⟩, hts⟩ := List.forall_mem_cons.mp hts
    have hfirst : Firm (cs ++ ' ' :: t.form.text.toList) :=
      ⟨cs ++ ' ' :: before, c, by simp [ht], hc⟩
    have := ih hfirst hts
    rwa [List.append_assoc] at this

theorem toList_respelling {t : Token} {ts : List Token} (h : ∀ u ∈ t :: ts, u.form ≠ .endLine) :
    (respelling (t :: ts)).toList = t.form.text.toList ++ trail ts := by
  have hall : (t :: ts).filter (·.form ≠ .endLine) = t :: ts :=
    List.filter_eq_self.mpr fun u hu => decide_eq_true (h u hu)
  rw [respelling, hall, String.toList_intercalate]
  clear h hall
  induction ts generalizing t with
  | nil => simp [trail]
  | cons u ts ih =>
    simp only [List.map_cons, List.intercalate_cons_cons] at ih ⊢
    rw [ih (t := u)]
    simp [trail]

/-- The same line, with the end of it left out. -/
theorem respelling_append_endLine (ts : List Token) (stop : Position) :
    respelling (ts ++ [⟨.endLine, stop⟩]) = respelling ts := by
  simp [respelling]

/-- A blank can be left out in front. -/
theorem Lexes.of_blank {number : Int} {previous : Option Form} {column : Nat} {c : Char}
    {cs : List Char} {ts : List Token} (hc : Text.isBlank c = true)
    (h : Lexes number previous column (c :: cs) ts) : Lexes number previous (column + 1) cs ts := by
  obtain ⟨ps, hcut, hps⟩ := h
  refine ⟨ps, cut_eq_iff.mp ?_, hps⟩
  rwa [← cut_eq_iff, cut, if_pos hc] at hcut

/-- A line that is accepted and has no floats can be written down again from its tokens. -/
theorem Respelled.exists_ofLine {number : Int} {ts : List Token} (h : Respelled number none ts) :
    ∃ us stop, ofLine number (lineText (respelling ts)) = .ok (us ++ [⟨.endLine, stop⟩]) ∧
      us.map (·.form) = ts.map (·.form) := by
  cases ts with
  | nil => exact ⟨[], _, ofLine_eq_ok_iff.mpr ⟨[], [], .nil 1, rfl, rfl⟩, rfl⟩
  | cons t ts =>
    have htext := toList_respelling fun u hu => (h.plain u hu).1
    obtain ⟨⟨-, ht⟩, hts⟩ := List.forall_mem_cons.mp h.plain
    have hfirm : Firm (respelling (t :: ts)).toList :=
      htext ▸ ht.append_trail fun u hu => (hts u hu).2
    -- the first space would stand in column 0
    obtain ⟨us, hus, hforms⟩ := h.lexes 0
    have hlexes : Lexes number none 1 (respelling (t :: ts)).toList us := by
      rw [htext]
      exact hus.of_blank rfl
    obtain ⟨ps, hcut, hps⟩ := hlexes
    rw [lineText_of_last hfirm]
    exact ⟨us, _, ofLine_eq_ok_iff.mpr ⟨ps, us, hcut, hps, rfl⟩, hforms⟩

/-- The tokens of a line without floats, written with single spaces between them, are a line that is
accepted again and has the same tokens. -/
theorem respelling_read_back {line number : Int} {text : String} {ts : List Token}
    (h : ofLine line (lineText text) = .ok ts) (hf : ∀ t ∈ ts, ∀ x, t.form ≠ .float x) :
    ∃ us, ofLine number (lineText (respelling ts)) = .ok us ∧
      us.map (·.form) = ts.map (·.form) := by
  obtain ⟨ps, body, hc, hb, rfl⟩ := ofLine_eq_ok_iff.mp h
  have hr : Respelled number none body :=
    respelled_of_ofPieces hc hb (List.forall_mem_append.mp hf).1
  obtain ⟨us, stop, hus, hforms⟩ := hr.exists_ofLine
  rw [respelling_append_endLine]
  exact ⟨_, hus, by simp [hforms]⟩

/-- A line with blanks inside an array type and a call, a run of two operators and leading zeros. -/
def looseLine : String := "xs: row [ ]<--f (007 )==\"a  b\""

theorem looseLine_read_back : ∃ ts us, ofLine 1 (lineText looseLine) = .ok ts ∧
    respelling ts = "xs : row[] <- - f ( 7 ) == \"a  b\"" ∧
    ofLine 2 (lineText (respelling ts)) = .ok us ∧ us.map (·.form) = ts.map (·.form) := by
  have hread : (ofLine 1 (lineText looseLine)).toOption.map
      (fun ts => (ts.map (·.form), respelling ts)) = some
      ([.name "xs", .mark .colon, .arrayTypeName "row", .connective .assign, .sign .negate,
        .call "f", .mark .openParen, .int 7, .mark .closeParen, .connective (.operate .equal),
        .string "a  b", .endLine], "xs : row[] <- - f ( 7 ) == \"a  b\"") := by decide +kernel
  obtain ⟨ts, hts, hn⟩ := Option.map_eq_some_iff.mp hread
  obtain ⟨hforms, htext⟩ := Prod.mk.inj hn
  have hfloats : ∀ f ∈ ts.map (·.form), ∀ x, f ≠ .float x := by
    rw [hforms]
    simp
  obtain ⟨us, hus, he⟩ := respelling_read_back (eq_ok_of_toOption hts)
    (List.forall_mem_map.mp hfloats)
  exact ⟨ts, us, eq_ok_of_toOption hts, htext, hus, he⟩

end AlgoFrontEnd.Token
