import AlgoFrontEnd.Proofs.Number.Limits
import AlgoFrontEnd.Proofs.Token.Lines
import AlgoFrontEnd.Proofs.Token.Spans

/-! What keeps lines from having tokens. Main statement: it is a lexical fault at a place in the
lines, or the first piece that is refused is a numeral whose value cannot be held. -/
namespace AlgoFrontEnd.Token

/-! ### Numerals -/

/-- An integer of too many digits, or a whole part that rounds past the largest finite value. -/
def Overlong (chars : List Char) : Prop :=
  chars.any Char.isDigit = true ∧
    ('.' ∉ chars ∧ Number.maxIntegerDigits < chars.length ∨
      ∃ whole behind, chars = whole ++ '.' :: behind ∧ '.' ∉ whole ∧ '.' ∉ behind ∧
        Number.overflow ≤ Number.ofDigits whole)

theorem parts_append_point {whole : List Char} (h : '.' ∉ whole) (rest : List Char) :
    Number.parts (whole ++ '.' :: rest) = whole :: Number.parts rest := by
  induction whole with
  | nil => rfl
  | cons c whole ih =>
    obtain ⟨hc, h⟩ := not_or.mp (List.mem_cons.not.mp h)
    rw [List.cons_append, Number.parts, ih h]
    exact Ne.symm hc

theorem parts_of_notMem {chars : List Char} (h : '.' ∉ chars) : Number.parts chars = [chars] := by
  induction chars with
  | nil => rfl
  | cons c chars ih =>
    obtain ⟨hc, h⟩ := not_or.mp (List.mem_cons.not.mp h)
    rw [Number.parts, ih h]
    exact Ne.symm hc

theorem parts_eq_one {chars part : List Char} (h : Number.parts chars = [part]) :
    part = chars ∧ '.' ∉ chars := by
  have hchars := intercalate_parts chars
  have hpoint := @not_mem_parts chars
  rw [h] at hchars hpoint
  obtain rfl : part = chars := by simpa using hchars
  exact ⟨rfl, hpoint part (List.mem_singleton_self part)⟩

theorem parts_eq_two {chars whole behind : List Char} (h : Number.parts chars = [whole, behind]) :
    chars = whole ++ '.' :: behind ∧ '.' ∉ whole ∧ '.' ∉ behind := by
  have hchars := intercalate_parts chars
  have hpoint := @not_mem_parts chars
  rw [h] at hchars hpoint
  exact ⟨by simpa [List.intercalate] using hchars.symm, hpoint whole (by simp),
    hpoint behind (by simp)⟩

theorem integer_eq_error {digits : List Char} :
    (∃ l, Number.integer digits = .error l) ↔ Number.maxIntegerDigits < digits.length := by
  unfold Number.integer
  split <;> simp <;> omega

theorem real_eq_error {whole behind : List Char} :
    (∃ l, Number.real whole behind = .error l) ↔ Number.overflow ≤ Number.ofDigits whole := by
  rw [← Number.toBinary64?_eq_none]
  unfold Number.real
  split <;> simp_all

/-- A numeral is refused as a wrong one, or because its value cannot be held. -/
theorem numeralForm_error {chars : List Char} {column : Nat} {r : Refusal}
    (h : numeralForm chars column = .error r) :
    (∃ cause, r = .fault cause column ∧ cause.kind.wider? = some .lexical) ∨
      (∃ l, r = .limit l) ∧ Overlong chars := by
  unfold numeralForm at h
  split at h
  · rename_i hdigit
    split at h
    · rename_i digits hparts
      obtain ⟨l, hl, rfl⟩ := mapError_eq_error.mp (map_eq_error.mp h)
      obtain ⟨rfl, hpoint⟩ := parts_eq_one hparts
      exact .inr ⟨⟨l, rfl⟩, hdigit, .inl ⟨hpoint, integer_eq_error.mp ⟨l, hl⟩⟩⟩
    · rename_i whole behind hparts
      obtain ⟨l, hl, rfl⟩ := mapError_eq_error.mp (map_eq_error.mp h)
      obtain ⟨rfl, hwhole, hbehind⟩ := parts_eq_two hparts
      exact .inr ⟨⟨l, rfl⟩, hdigit,
        .inr ⟨whole, behind, rfl, hwhole, hbehind, real_eq_error.mp ⟨l, hl⟩⟩⟩
    · cases h
      exact .inl ⟨_, rfl, rfl⟩
  · cases h
    exact .inl ⟨_, rfl, rfl⟩

theorem numeralForm_overlong {chars : List Char} (h : Overlong chars) (column : Nat) :
    ∃ l, numeralForm chars column = .error (.limit l) := by
  obtain ⟨hdigit, ⟨hpoint, hlong⟩ | ⟨whole, behind, rfl, hwhole, hbehind, hlarge⟩⟩ := h
  · obtain ⟨l, hl⟩ := integer_eq_error.mpr hlong
    refine ⟨l, ?_⟩
    rw [numeralForm, if_pos hdigit, parts_of_notMem hpoint]
    exact map_eq_error.mpr (mapError_eq_error.mpr ⟨l, hl, rfl⟩)
  · obtain ⟨l, hl⟩ := real_eq_error.mpr hlarge
    refine ⟨l, ?_⟩
    rw [numeralForm, if_pos hdigit, parts_append_point hwhole, parts_of_notMem hbehind]
    exact map_eq_error.mpr (mapError_eq_error.mpr ⟨l, hl, rfl⟩)

/-! ### Pieces -/

/-- A column of a line that begins at a column. -/
def Within (column length c : Nat) : Prop := column ≤ c ∧ c < column + length

def Stop.column : Stop → Nat
  | .strayCharacter _ column | .openQuote column => column

theorem refusal_eq (s : Stop) :
    ∃ cause, s.refusal = .fault cause s.column ∧ cause.kind.wider? = some .lexical := by
  cases s <;> exact ⟨_, rfl, rfl⟩

theorem Within.mono {column column' length length' c : Nat} (h : Within column' length' c)
    (hc : column ≤ column') (hl : column' + length' ≤ column + length) :
    Within column length c :=
  ⟨hc.trans h.1, h.2.trans_le hl⟩

theorem within_self (column : Nat) (c : Char) (rest : List Char) :
    Within column (c :: rest).length column :=
  ⟨le_rfl, by simp⟩

theorem stop_prepend (c : Cut) (run : Placed) (next : Nat) :
    (c.prepend run next).stop = c.stop := by
  unfold Cut.prepend
  split
  · split <;> simp_all
  · rfl

/-- Pieces lie on their line, and so does what ends the cutting. -/
theorem within_of_cut (column : Nat) (cs : List Char) :
    (∀ q ∈ (cut column cs).pieces, Within column cs.length q.column) ∧
      ∀ s ∈ (cut column cs).stop, Within column cs.length s.column := by
  fun_induction cut column cs with
  | case1 => exact ⟨List.forall_mem_nil _, fun s hs => by cases hs⟩
  | case2 column c rest _ ih =>
    have hmono {c' : Nat} (h : Within (column + 1) rest.length c') :
        Within column (c :: rest).length c' := h.mono (by omega) (by simp; omega)
    exact ⟨fun q hq => hmono (ih.1 q hq), fun s hs => hmono (ih.2 s hs)⟩
  | case3 column rest =>
    refine ⟨List.forall_mem_nil _, ?_⟩
    rintro _ ⟨⟩
    exact within_self column '"' rest
  | case4 column rest head after hquote inside following _ ih =>
    have hlen : inside.length + (after.length + 1) = rest.length := by
      rw [← List.length_cons (a := head), ← hquote, ← List.length_append,
        List.takeWhile_append_dropWhile]
    have hmono {c' : Nat} (h : Within (column + inside.length + 2) after.length c') :
        Within column ('"' :: rest).length c' := h.mono (by omega) (by simp; omega)
    refine ⟨?_, fun s hs => hmono (ih.2 s hs)⟩
    exact List.forall_mem_cons.mpr ⟨within_self column '"' rest, fun q hq => hmono (ih.1 q hq)⟩
  | case5 column c rest _ _ m _ following ih =>
    have hmono {c' : Nat} (h : Within (column + 1) rest.length c') :
        Within column (c :: rest).length c' := h.mono (by omega) (by simp; omega)
    refine ⟨?_, fun s hs => hmono (ih.2 s hs)⟩
    exact List.forall_mem_cons.mpr ⟨within_self column c rest, fun q hq => hmono (ih.1 q hq)⟩
  | case6 column c rest _ _ _ piece continues _ more next ih =>
    have hlen : more.length + (rest.dropWhile continues).length = rest.length := by
      rw [← List.length_append, List.takeWhile_append_dropWhile]
    have hmono {c' : Nat} (h : Within next (rest.dropWhile continues).length c') :
        Within column (c :: rest).length c' := h.mono (by omega) (by simp; omega)
    refine ⟨fun q hq => ?_, fun s hs => hmono (ih.2 s (stop_prepend _ _ _ ▸ hs))⟩
    rcases mem_prepend hq with rfl | hq
    · exact within_self column c rest
    · exact hmono (ih.1 q hq)
  | case7 column c rest =>
    refine ⟨List.forall_mem_nil _, ?_⟩
    rintro _ ⟨⟩
    exact within_self column c rest

/-- A numeral behind a name does not call it. -/
theorem calledForm_append (previous : Option Form) (before after : List Placed) (column : Nat)
    (chars : List Char) (form : Form) :
    calledForm previous (before ++ ⟨column, .numeral chars⟩ :: after) form =
      calledForm previous before form := by
  cases form with
  | name text =>
    cases before with
    | nil => rfl
    | cons q before =>
      obtain ⟨c, piece⟩ := q
      cases piece with
      | mark m => cases m <;> rfl
      | _ => rfl
  | _ => rfl

/-- A word of this meaning makes no array type with what follows it. -/
def Alone (form : Form) (rest : List Placed) : Prop :=
  ∀ text c₁ c₂ rest', form = .typeName text →
    rest = ⟨c₁, .mark .openBracket⟩ :: ⟨c₂, .mark .closeBracket⟩ :: rest' → False

theorem alone_append {form : Form} {before after : List Placed} {column : Nat}
    {chars : List Char} :
    Alone form (before ++ ⟨column, .numeral chars⟩ :: after) ↔ Alone form before := by
  refine ⟨fun h text c₁ c₂ rest hf he => ?_, fun h text c₁ c₂ rest hf he => ?_⟩
  · subst he
    exact h text c₁ c₂ _ hf rfl
  · match before with
    | [] => cases he
    | [_] => cases he
    | _ :: _ :: rest =>
      cases he
      exact h text c₁ c₂ rest hf rfl

/-- A word that makes no array type with a pair of brackets behind it is read alone. -/
theorem ofPieces_word {number : Int} {previous : Option Form} {c : Nat} {chars : List Char}
    {rest : List Placed}
    (h : Alone (wordForm previous (String.ofList chars)) rest) :
    ofPieces number previous (⟨c, .word chars⟩ :: rest) = (do
      let form := calledForm previous rest (wordForm previous (String.ofList chars))
      return ⟨form, ⟨number, c⟩⟩ :: (← ofPieces number (some form) rest)) := by
  rw [ofPieces]
  exact h

theorem ofPieces_array {number : Int} {previous : Option Form} {c c₁ c₂ : Nat}
    {chars : List Char} {text : String}
    (h : wordForm previous (String.ofList chars) = .typeName text) (rest : List Placed) :
    ofPieces number previous (⟨c, .word chars⟩ :: ⟨c₁, .mark .openBracket⟩ ::
      ⟨c₂, .mark .closeBracket⟩ :: rest) = (do
      return ⟨.arrayTypeName text, ⟨number, c⟩⟩ ::
        (← ofPieces number (some (.arrayTypeName text)) rest)) := by
  rw [ofPieces]
  exact h

/-- A numeral that is refused is all that counts behind pieces that are accepted. -/
theorem ofPieces_append {number : Int} {previous : Option Form} {before : List Placed}
    {column : Nat} {chars : List Char} {r : Refusal} {ts : List Token}
    (h : ofPieces number previous before = .ok ts)
    (hr : numeralForm chars column = .error r) (after : List Placed) :
    ofPieces number previous (before ++ ⟨column, .numeral chars⟩ :: after) = .error r := by
  fun_induction ofPieces number previous before generalizing ts with
  | case1 previous =>
    rw [List.nil_append, ofPieces]
    exact bind_eq_error.mpr (.inl hr)
  | case2 =>
    rename_i hw form ih
    obtain ⟨us, hus, -⟩ := bind_eq_ok.mp h
    simp only [List.cons_append]
    rw [ofPieces_array hw]
    exact bind_eq_error.mpr (.inl (ih hus))
  | case3 =>
    rename_i hw form ih
    obtain ⟨us, hus, -⟩ := bind_eq_ok.mp h
    rw [List.cons_append, ofPieces_word (alone_append.mpr hw), calledForm_append]
    exact bind_eq_error.mpr (.inl (ih hus))
  | case4 previous c chars' rest tokens hs ih =>
    obtain ⟨us, hus, -⟩ := bind_eq_ok.mp h
    rw [List.cons_append, ofPieces, hs]
    exact bind_eq_error.mpr (.inl (ih hus))
  | case5 => cases h
  | case6 previous c chars' rest ih =>
    obtain ⟨form, hf, h⟩ := bind_eq_ok.mp h
    obtain ⟨us, hus, -⟩ := bind_eq_ok.mp h
    rw [List.cons_append, ofPieces]
    exact bind_eq_error.mpr (.inr ⟨form, hf, bind_eq_error.mpr (.inl (ih form hus))⟩)
  | case7 =>
    rename_i form ih
    obtain ⟨us, hus, -⟩ := bind_eq_ok.mp h
    rw [List.cons_append, ofPieces]
    exact bind_eq_error.mpr (.inl (ih hus))
  | case8 previous c m rest ih =>
    obtain ⟨us, hus, -⟩ := bind_eq_ok.mp h
    rw [List.cons_append, ofPieces]
    exact bind_eq_error.mpr (.inl (ih hus))

/-- The first of the pieces that is refused is a numeral whose value cannot be held. -/
def OverlongAmong (number : Int) (previous : Option Form) (pieces : List Placed) : Prop :=
  ∃ before column chars after, pieces = before ++ ⟨column, .numeral chars⟩ :: after ∧
    (∃ ts, ofPieces number previous before = .ok ts) ∧ Overlong chars

/-- Why pieces are refused: a fault at one of them, or a numeral that is the first to be refused. -/
def Refuses (number : Int) (previous : Option Form) (pieces : List Placed) (r : Refusal) : Prop :=
  (∃ cause q, q ∈ pieces ∧ r = .fault cause q.column ∧ cause.kind.wider? = some .lexical) ∨
    (∃ l, r = .limit l) ∧ OverlongAmong number previous pieces

/-- Pieces in front that are accepted do not change why others are refused. -/
theorem Refuses.behind {number : Int} {previous previous' : Option Form}
    {pieces : List Placed} {r : Refusal} (h : Refuses number previous' pieces r) (ps : List Placed)
    (hps : ∀ before column chars after, pieces = before ++ ⟨column, .numeral chars⟩ :: after →
      (∃ ts, ofPieces number previous' before = .ok ts) →
        ∃ ts, ofPieces number previous (ps ++ before) = .ok ts) :
    Refuses number previous (ps ++ pieces) r := by
  rcases h with ⟨cause, q, hq, hr, hk⟩ | ⟨hl, before, column, chars, after, rfl, hts, ho⟩
  · exact .inl ⟨cause, q, List.mem_append_right ps hq, hr, hk⟩
  · exact .inr ⟨hl, ps ++ before, column, chars, after, by simp,
      hps before column chars after rfl hts, ho⟩

theorem ofPieces_error {number : Int} {previous : Option Form} {pieces : List Placed} {r : Refusal}
    (h : ofPieces number previous pieces = .error r) : Refuses number previous pieces r := by
  fun_induction ofPieces number previous pieces with
  | case1 => cases h
  | case2 previous c chars text c₁ c₂ rest hw form ih =>
    refine (ih (bind_pure_eq_error.mp h)).behind [_, _, _] ?_
    rintro before _ _ _ - ⟨ts, hts⟩
    exact ⟨_, (ofPieces_array hw before).trans (bind_eq_ok.mpr ⟨ts, hts, rfl⟩)⟩
  | case3 previous c chars rest hw form ih =>
    refine (ih (bind_pure_eq_error.mp h)).behind [_] ?_
    rintro before column chars' after rfl ⟨ts, hts⟩
    have hform : form = calledForm previous before (wordForm previous (String.ofList chars)) :=
      calledForm_append ..
    rw [hform] at hts
    exact ⟨_, (ofPieces_word (alone_append.mp hw)).trans (bind_eq_ok.mpr ⟨ts, hts, rfl⟩)⟩
  | case4 previous c chars rest tokens hs ih =>
    refine (ih (bind_pure_eq_error.mp h)).behind [_] ?_
    rintro before _ _ _ - ⟨ts, hts⟩
    refine ⟨tokens ++ ts, ?_⟩
    rw [List.singleton_append, ofPieces, hs]
    exact bind_eq_ok.mpr ⟨ts, hts, rfl⟩
  | case5 previous c chars rest hs =>
    cases h
    exact .inl ⟨_, _, List.mem_cons_self .., rfl, rfl⟩
  | case6 previous c chars rest ih =>
    rcases bind_eq_error.mp h with h | ⟨form, hf, h⟩
    · rcases numeralForm_error h with ⟨cause, hr, hk⟩ | ⟨hl, ho⟩
      · exact .inl ⟨cause, _, List.mem_cons_self .., hr, hk⟩
      · exact .inr ⟨hl, [], c, chars, rest, rfl, ⟨[], rfl⟩, ho⟩
    · refine (ih form (bind_pure_eq_error.mp h)).behind [_] ?_
      rintro before _ _ _ - ⟨ts, hts⟩
      refine ⟨⟨form, ⟨number, c⟩⟩ :: ts, ?_⟩
      rw [List.singleton_append, ofPieces]
      exact bind_eq_ok.mpr ⟨form, hf, bind_eq_ok.mpr ⟨ts, hts, rfl⟩⟩
  | case7 previous c chars rest form ih =>
    refine (ih (bind_pure_eq_error.mp h)).behind [_] ?_
    rintro before _ _ _ - ⟨ts, hts⟩
    refine ⟨⟨form, ⟨number, c⟩⟩ :: ts, ?_⟩
    rw [List.singleton_append, ofPieces]
    exact bind_eq_ok.mpr ⟨ts, hts, rfl⟩
  | case8 previous c m rest ih =>
    refine (ih (bind_pure_eq_error.mp h)).behind [_] ?_
    rintro before _ _ _ - ⟨ts, hts⟩
    refine ⟨⟨.mark m, ⟨number, c⟩⟩ :: ts, ?_⟩
    rw [List.singleton_append, ofPieces]
    exact bind_eq_ok.mpr ⟨ts, hts, rfl⟩

/-! ### Lines -/

theorem ofLine_error {number : Int} {chars : List Char} {r : Refusal}
    (h : ofLine number chars = .error r) :
    (∃ cause column, r = .fault cause column ∧ cause.kind.wider? = some .lexical ∧
      Within 1 chars.length column) ∨
        (∃ l, r = .limit l) ∧ OverlongAmong number none (cut 1 chars).pieces := by
  obtain ⟨hpieces, hstop⟩ := within_of_cut 1 chars
  rcases bind_eq_error.mp h with h | ⟨ts, -, h⟩
  · rcases ofPieces_error h with ⟨cause, q, hq, hr, hk⟩ | ho
    · exact .inl ⟨cause, q.column, hr, hk, hpieces q hq⟩
    · exact .inr ho
  · split at h
    · rename_i s hs
      cases h
      obtain ⟨cause, hr, hk⟩ := refusal_eq s
      exact .inl ⟨cause, s.column, hr, hk, hstop s hs⟩
    · cases h

theorem ofLine_overlong {number : Int} {chars : List Char}
    (h : OverlongAmong number none (cut 1 chars).pieces) :
    ∃ l, ofLine number chars = .error (.limit l) := by
  obtain ⟨before, column, digits, after, hcut, ⟨ts, hts⟩, ho⟩ := h
  obtain ⟨l, hl⟩ := numeralForm_overlong ho column
  refine ⟨l, bind_eq_error.mpr (.inl ?_)⟩
  rw [hcut]
  exact ofPieces_append hts hl after

/-- Of several lines the first one that is refused counts. -/
theorem ofLinesFrom_error {number : Int} {lines : List String} {e : Rejection}
    (h : ofLinesFrom number lines = .error e) :
    ∃ before line after r, lines = before ++ line :: after ∧
      (∃ ts, ofLinesFrom number before = .ok ts) ∧
        ofLine (number + before.length) (lineText line) = .error r ∧
          e = r.atLine (number + before.length) := by
  induction lines generalizing number with
  | nil => cases h
  | cons line lines ih =>
    rcases bind_eq_error.mp h with h | ⟨ts, hts, h⟩
    · obtain ⟨r, hr, rfl⟩ := mapError_eq_error.mp h
      exact ⟨[], line, lines, r, rfl, ⟨[], rfl⟩, by simpa using hr, by simp⟩
    · have hnext {xs : List String} :
          number + 1 + xs.length = number + (line :: xs).length := by
        simp only [List.length_cons]
        omega
      obtain ⟨before, l, after, r, rfl, ⟨us, hus⟩, hr, rfl⟩ := ih (bind_pure_eq_error.mp h)
      rw [hnext] at hr
      exact ⟨line :: before, l, after, r, rfl,
        ⟨_, bind_eq_ok.mpr ⟨ts, hts, bind_eq_ok.mpr ⟨us, hus, rfl⟩⟩⟩, hr, by rw [hnext]⟩

/-- The first piece of the lines that is refused is a numeral whose value cannot be held. -/
def OverlongFirst (lines : List String) : Prop :=
  ∃ before line after, lines = before ++ line :: after ∧ (∃ ts, ofLines before = .ok ts) ∧
    OverlongAmong (1 + before.length) none (cut 1 (lineText line)).pieces

/-- A lexical fault at a column of a line, behind lines that are accepted. -/
def LexicalFault (lines : List String) (f : Fault) : Prop :=
  f.cause.kind.wider? = some .lexical ∧
    ∃ before line after column, lines = before ++ line :: after ∧
      (∃ ts, ofLines before = .ok ts) ∧ f.position = some ⟨1 + before.length, (column : Nat)⟩ ∧
        Within 1 (lineText line).length column

theorem ofLines_overlong {lines : List String} (h : OverlongFirst lines) :
    ∃ l, ofLines lines = .error (.limit l) := by
  obtain ⟨before, line, after, rfl, ⟨ts, hts⟩, ho⟩ := h
  obtain ⟨l, hl⟩ := ofLine_overlong ho
  refine ⟨l, ?_⟩
  rw [ofLines, ofLinesFrom_append, ofLinesFrom]
  exact bind_eq_error.mpr (.inr ⟨ts, hts, bind_eq_error.mpr (.inl
    (bind_eq_error.mpr (.inl (mapError_eq_error.mpr ⟨_, hl, rfl⟩))))⟩)

/-- Lines have tokens or a lexical fault, unless the first piece that is refused is a numeral whose
value cannot be held. -/
theorem tokens_or_fault_iff (lines : List String) :
    ((∃ ts, ofLines lines = .ok ts) ∨
      ∃ f, ofLines lines = .error (.fault f) ∧ LexicalFault lines f) ↔ ¬ OverlongFirst lines := by
  constructor
  · intro h ho
    obtain ⟨l, hl⟩ := ofLines_overlong ho
    rcases h with ⟨ts, hts⟩ | ⟨f, hf, -⟩
    · rw [hl] at hts
      cases hts
    · rw [hl] at hf
      cases hf
  · intro ho
    cases h : ofLines lines with
    | ok ts => exact .inl ⟨ts, rfl⟩
    | error e =>
      obtain ⟨before, line, after, r, rfl, hbefore, hr, rfl⟩ := ofLinesFrom_error h
      rcases ofLine_error hr with ⟨cause, column, rfl, hk, hc⟩ | ⟨-, hover⟩
      · exact .inr ⟨_, rfl, hk, before, line, after, column, rfl, hbefore, rfl, hc⟩
      · exact absurd ⟨before, line, after, rfl, hbefore, hover⟩ ho

theorem overlongFirst_single {chars : List Char} (hc : ∀ c ∈ chars, isNumeralChar c = true)
    (h : Overlong chars) : OverlongFirst [String.ofList chars] := by
  have hne : chars ≠ [] := by
    rintro rfl
    exact absurd h.1 (by simp)
  have htext : lineText (String.ofList chars) = chars := by
    obtain ⟨tail, hline, htail⟩ :=
      exists_append_of_dropEndWhile (fun c => c = '\r' || c = '\n') chars
    have : tail = [] := by
      refine List.eq_nil_iff_forall_not_mem.mpr fun c hm => ?_
      have hnum := hc c (hline ▸ List.mem_append_right _ hm)
      have : c = '\r' ∨ c = '\n' := by simpa using htail c hm
      rcases this with rfl | rfl <;> cases hnum
    rw [lineText, String.toList_ofList]
    simpa [this] using hline.symm
  have hcut : (cut 1 chars).pieces = [⟨1, .numeral chars⟩] := by
    cases chars with
    | nil => exact absurd rfl hne
    | cons c more =>
      obtain ⟨hc, hmore⟩ := List.forall_mem_cons.mp hc
      have hnil : Ends isNumeralChar [] := fun c hc => by cases hc
      have := cut_run (run?_numeral hc) hmore hnil 1
      rw [List.append_nil] at this
      rw [this, cut]
      rfl
  refine ⟨[], String.ofList chars, [], rfl, ⟨[], rfl⟩, [], 1, chars, [], ?_, ⟨[], rfl⟩, h⟩
  rw [htext, hcut]
  rfl

theorem replicate_overlong {n : Nat} (h : Number.maxIntegerDigits < n) {c : Char}
    (hc : c.isDigit = true) : Overlong (List.replicate n c) := by
  refine ⟨?_, .inl ⟨?_, by rwa [List.length_replicate]⟩⟩
  · rw [List.any_replicate, if_neg (by omega), hc]
  · intro hm
    rw [← List.eq_of_mem_replicate hm] at hc
    cases hc

/-- An integer of one digit more than it may have, and a whole part of 309 nines. -/
theorem longNumerals_refused :
    (¬ ((∃ ts, ofLines [String.ofList (List.replicate 4301 '1')] = .ok ts) ∨
      ∃ f, ofLines [String.ofList (List.replicate 4301 '1')] = .error (.fault f))) ∧
    ¬ ((∃ ts, ofLines [String.ofList (List.replicate 309 '9' ++ ['.', '5'])] = .ok ts) ∨
      ∃ f, ofLines [String.ofList (List.replicate 309 '9' ++ ['.', '5'])] = .error (.fault f)) := by
  have hrefused {chars : List Char} (hc : ∀ c ∈ chars, isNumeralChar c = true)
      (h : Overlong chars) : ¬ ((∃ ts, ofLines [String.ofList chars] = .ok ts) ∨
        ∃ f, ofLines [String.ofList chars] = .error (.fault f)) := by
    obtain ⟨l, hl⟩ := ofLines_overlong (overlongFirst_single hc h)
    simp [hl]
  have hdigits (n : Nat) (d : Char) (hd : isNumeralChar d = true) :
      ∀ c ∈ List.replicate n d, isNumeralChar c = true := fun c hc => by
    rw [List.eq_of_mem_replicate hc, hd]
  have hpoint : ∀ c ∈ ['.', '5'], isNumeralChar c = true :=
    List.forall_mem_cons.mpr ⟨rfl, List.forall_mem_singleton.mpr rfl⟩
  constructor
  · exact hrefused (hdigits 4301 '1' rfl) (replicate_overlong (by decide) rfl)
  · have hnines : Overlong (List.replicate 309 '9' ++ ['.', '5']) :=
      ⟨by decide +kernel, .inr ⟨List.replicate 309 '9', ['5'], rfl, by decide +kernel, by decide,
        by decide +kernel⟩⟩
    exact hrefused
      (fun c hc => (List.mem_append.mp hc).elim (hdigits 309 '9' rfl c) (hpoint c)) hnines

end AlgoFrontEnd.Token
