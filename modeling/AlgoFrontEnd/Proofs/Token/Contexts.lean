import AlgoFrontEnd.Proofs.Token.Spans
import Mathlib.Data.List.Chain

/-! What stands next to a token. Main statement: in accepted lines every token agrees with the token
before it and with those behind it. -/
namespace AlgoFrontEnd.Token

/-- Operators, keywords and marks behind which a value is still to come. -/
def Form.AwaitsValue (f : Form) : Prop :=
  (∃ c, f = .connective c) ∨ (∃ s, f = .sign s) ∨ (∃ k, f = .keyword k) ∨
    f ∈ [.mark .comma, .endLine, .mark .openParen, .mark .openBracket]

/-- An operator spelled as a plus or a minus. -/
def Form.IsPlusOrMinus (f : Form) : Prop :=
  (∃ s, f = .sign s) ∨ ∃ c, f = .connective c ∧ (c.spelling = "+" ∨ c.spelling = "-")

/-- A token with the one before it, if there is any, and those behind it. -/
structure InContext (previous : Option Form) (t : Token) (after : List Token) : Prop where
  call : ∀ name, t.form = .call name → previous ≠ some (.keyword .functionWord) ∧
    ∃ next ∈ after.head?, next.form = .mark .openParen ∧ next.position.line = t.position.line
  name : ∀ name, t.form = .name name → (∃ next ∈ after.head?, next.form = .mark .openParen) →
    previous = some (.keyword .functionWord)
  behindColon : previous = some (.mark .colon) →
    ∀ name, t.form ≠ .name name ∧ t.form ≠ .call name
  typeName : ∀ name, t.form = .typeName name →
    ¬ [.mark .openBracket, .mark .closeBracket] <+: after.map (·.form)
  sign : t.form.IsPlusOrMinus → ((∃ s, t.form = .sign s) ↔ ∀ f ∈ previous, f.AwaitsValue)

/-- Every token of a list stands in its context. This one comes before the list. -/
def InContexts (previous : Option Form) (ts : List Token) : Prop :=
  ∀ before t after, ts = before ++ t :: after →
    InContext ((before.map (·.form)).getLast?.or previous) t after

theorem getLast?_cons_or {α : Type} (x : α) (xs : List α) (previous : Option α) :
    (x :: xs).getLast?.or previous = xs.getLast?.or (some x) := by
  rw [List.getLast?_cons]
  cases xs.getLast? <;> rfl

theorem inContexts_nil (previous : Option Form) : InContexts previous [] := by
  intro before t after h
  simp at h

theorem InContexts.cons {previous : Option Form} {t : Token} {ts : List Token}
    (ht : InContext previous t ts) (hts : InContexts (some t.form) ts) :
    InContexts previous (t :: ts) := by
  intro before u after h
  cases before with
  | nil =>
    cases h
    exact ht
  | cons b before =>
    cases h
    rw [List.map_cons, getLast?_cons_or]
    exact hts before u after rfl

theorem InContexts.head {previous : Option Form} {t : Token} {ts : List Token}
    (h : InContexts previous (t :: ts)) : InContext previous t ts :=
  h [] t ts rfl

theorem InContexts.tail {previous : Option Form} {t : Token} {ts : List Token}
    (h : InContexts previous (t :: ts)) : InContexts (some t.form) ts := by
  intro before u after he
  have hu := h (t :: before) u after (he ▸ rfl)
  rwa [List.map_cons, getLast?_cons_or] at hu

/-- Behind the end of a line everything is as at the start of the text. -/
theorem InContext.behindLine {t : Token} {after : List Token} (h : InContext none t after) :
    InContext (some .endLine) t after where
  call name hn := ⟨nofun, (h.call name hn).2⟩
  name name hn hnext := nomatch h.name name hn hnext
  behindColon := nofun
  typeName := h.typeName
  sign hs := by
    refine (h.sign hs).trans ⟨fun _ f hf => ?_, fun _ => nofun⟩
    cases hf
    exact .inr (.inr (.inr (by simp)))

theorem InContexts.behindLine {ts : List Token} (h : InContexts none ts) :
    InContexts (some .endLine) ts := by
  intro before t after he
  have ht := h before t after he
  cases hb : (before.map (·.form)).getLast? with
  | none =>
    rw [hb] at ht
    exact ht.behindLine
  | some f => rwa [hb] at ht

/-! ### Forms -/

theorem wantsOperand_iff {f : Form} : f.wantsOperand = true ↔ f.AwaitsValue := by
  cases f with
  | mark m => cases m <;> simp [Form.wantsOperand, Form.AwaitsValue]
  | _ => simp [Form.wantsOperand, Form.AwaitsValue]

theorem wantsOperand_eq_true_iff {previous : Option Form} :
    wantsOperand previous = true ↔ ∀ f ∈ previous, f.AwaitsValue := by
  cases previous with
  | none => simp [wantsOperand]
  | some f => simp [wantsOperand, wantsOperand_iff]

/-- Forms that do not name anything, so that at most their sign matters in a context. -/
def Form.Unnamed (f : Form) : Prop :=
  ∀ name, f ≠ .call name ∧ f ≠ .name name ∧ f ≠ .typeName name

theorem InContext.of_unnamed {previous : Option Form} {t : Token} {after : List Token}
    (h : t.form.Unnamed)
    (hs : t.form.IsPlusOrMinus → ((∃ s, t.form = .sign s) ↔ ∀ f ∈ previous, f.AwaitsValue)) :
    InContext previous t after where
  call name hn := absurd hn (h name).1
  name name hn := absurd hn (h name).2.1
  behindColon _ name := ⟨(h name).2.1, (h name).1⟩
  typeName name hn := absurd hn (h name).2.2
  sign := hs

theorem unnamed_sign (s : Sign) : (Form.sign s).Unnamed := by simp [Form.Unnamed]

theorem unnamed_connective (c : Connective) : (Form.connective c).Unnamed := by
  simp [Form.Unnamed]

/-- Forms that say nothing about their neighbours. -/
def Form.Free (f : Form) : Prop := f.Unnamed ∧ ¬ f.IsPlusOrMinus

theorem InContext.of_free {previous : Option Form} {t : Token} {after : List Token}
    (h : t.form.Free) : InContext previous t after :=
  .of_unnamed h.1 fun hs => absurd hs h.2

theorem free_endLine : Form.endLine.Free := by
  simp [Form.Free, Form.Unnamed, Form.IsPlusOrMinus]

theorem free_mark (m : Mark) : (Form.mark m).Free := by
  simp [Form.Free, Form.Unnamed, Form.IsPlusOrMinus]

theorem free_string (text : String) : (Form.string text).Free := by
  simp [Form.Free, Form.Unnamed, Form.IsPlusOrMinus]

theorem free_arrayTypeName (text : String) : (Form.arrayTypeName text).Free := by
  simp [Form.Free, Form.Unnamed, Form.IsPlusOrMinus]

theorem numeralForm_cases {chars : List Char} {column : Nat} {form : Form}
    (h : numeralForm chars column = .ok form) : (∃ n, form = .int n) ∨ ∃ x, form = .float x := by
  unfold numeralForm at h
  split at h
  · split at h
    · obtain ⟨n, -, rfl⟩ := map_eq_ok.mp h
      exact .inl ⟨n, rfl⟩
    · obtain ⟨x, -, rfl⟩ := map_eq_ok.mp h
      exact .inr ⟨x, rfl⟩
    · cases h
  · cases h

theorem free_numeralForm {chars : List Char} {column : Nat} {form : Form}
    (h : numeralForm chars column = .ok form) : form.Free := by
  rcases numeralForm_cases h with ⟨n, rfl⟩ | ⟨x, rfl⟩ <;>
    simp [Form.Free, Form.Unnamed, Form.IsPlusOrMinus]

theorem wordForm_cases (previous : Option Form) (word : String) :
    (∃ text, wordForm previous word = .typeName text) ∨
    (∃ k, wordForm previous word = .keyword k) ∨ (∃ b, wordForm previous word = .bool b) ∨
      wordForm previous word = .name word ∧ previous ≠ some (.mark .colon) := by
  unfold wordForm
  split
  · exact .inl ⟨_, rfl⟩
  · split
    · exact .inr (.inl ⟨_, rfl⟩)
    · split
      · exact .inr (.inr (.inl ⟨_, rfl⟩))
      · split
        · exact .inr (.inr (.inl ⟨_, rfl⟩))
        · split
          · exact .inl ⟨_, rfl⟩
          · exact .inr (.inr (.inr ⟨rfl, ‹_›⟩))

/-- What a word is read as: a name only if no colon stands before it, and a call if a parenthesis
follows and no header introduces it. -/
inductive WordRead (previous : Option Form) (following : List Placed) (word : String) : Form → Prop
  | typeName (text : String) (h : wordForm previous word = .typeName text) :
      WordRead previous following word (.typeName text)
  | keyword (k : Keyword) : WordRead previous following word (.keyword k)
  | bool (b : Bool) : WordRead previous following word (.bool b)
  | name (hc : previous ≠ some (.mark .colon))
      (hp : (∃ column rest, following = ⟨column, .mark .openParen⟩ :: rest) →
        previous = some (.keyword .functionWord)) : WordRead previous following word (.name word)
  | call (hc : previous ≠ some (.mark .colon)) (hp : previous ≠ some (.keyword .functionWord))
      (hf : ∃ column rest, following = ⟨column, .mark .openParen⟩ :: rest) :
      WordRead previous following word (.call word)

theorem wordRead_of_name {previous : Option Form} (hc : previous ≠ some (.mark .colon))
    (following : List Placed) (word : String) :
    WordRead previous following word (calledForm previous following (.name word)) := by
  unfold calledForm
  split
  · rename_i text he
    cases he
    split
    · rename_i column rest
      split
      · exact .name hc fun _ => ‹_›
      · exact .call hc ‹_› ⟨column, rest, rfl⟩
    · rename_i hf
      exact .name hc fun ⟨column, rest, he⟩ => absurd he (hf column rest)
  · rename_i hn
    exact absurd rfl (hn word)

theorem wordRead (previous : Option Form) (following : List Placed) (word : String) :
    WordRead previous following word
      (calledForm previous following (wordForm previous word)) := by
  rcases wordForm_cases previous word with ⟨text, h⟩ | ⟨k, h⟩ | ⟨b, h⟩ | ⟨h, hc⟩ <;> rw [h]
  · exact .typeName text h
  · exact .keyword k
  · exact .bool b
  · exact wordRead_of_name hc following word

/-! ### Runs of operators -/

theorem splitRun_operators {line : Int} {column : Nat} {due : Bool} {cs : List Char}
    {ts : List Token} (h : splitRun line column due cs = some ts) :
    ∀ t ∈ ts, (∃ s, t.form = .sign s) ∨ ∃ c, t.form = .connective c := by
  fun_induction splitRun line column due cs generalizing ts with
  | case1 =>
    cases h
    exact List.forall_mem_nil _
  | case2 column due c rest s hs ih =>
    obtain ⟨ts, hts, rfl⟩ := Option.map_eq_some_iff.mp h
    exact List.forall_mem_cons.mpr ⟨.inl ⟨s, rfl⟩, ih hts⟩
  | case3 column due c rest hs op rest' hc ih =>
    obtain ⟨ts, hts, rfl⟩ := Option.map_eq_some_iff.mp h
    exact List.forall_mem_cons.mpr ⟨.inr ⟨op, rfl⟩, ih hts⟩
  | case4 => cases h

theorem splitRun_ne_nil {line : Int} {column : Nat} {due : Bool} {cs : List Char}
    {ts : List Token} (h : splitRun line column due cs = some ts) (hc : cs ≠ []) : ts ≠ [] := by
  cases cs with
  | nil => exact absurd rfl hc
  | cons c cs =>
    rw [splitRun] at h
    split at h
    · obtain ⟨ts, -, rfl⟩ := Option.map_eq_some_iff.mp h
      exact List.cons_ne_nil _ _
    · split at h
      · obtain ⟨ts, -, rfl⟩ := Option.map_eq_some_iff.mp h
        exact List.cons_ne_nil _ _
      · cases h

/-- Where an operand is due, a plus or minus is taken as a sign before connectives are tried. -/
theorem ofSpelling?_of_leadingConnective? {c : Char} {rest rest' : List Char} {op : Connective}
    (h : leadingConnective? (c :: rest) = some (op, rest'))
    (hop : op.spelling = "+" ∨ op.spelling = "-") : Sign.ofSpelling? c.toString ≠ none := by
  have hs := spelling_of_leadingConnective? h
  rcases hop with hop | hop <;>
  · rw [hop] at hs
    obtain rfl : _ = c := (List.cons.inj hs).1
    decide

theorem splitRun_inContexts {line : Int} {column : Nat} {due : Bool} {cs : List Char}
    {previous : Option Form} {ts later : List Token}
    (h : splitRun line column due cs = some ts)
    (hd : due = true ↔ ∀ f ∈ previous, f.AwaitsValue)
    (hl : InContexts ((ts.map (·.form)).getLast?.or previous) later) :
    InContexts previous (ts ++ later) := by
  fun_induction splitRun line column due cs generalizing previous ts with
  | case1 =>
    cases h
    exact hl
  | case2 column due c rest s hs ih =>
    obtain ⟨ts, hts, rfl⟩ := Option.map_eq_some_iff.mp h
    have hdue : due = true := by
      by_contra hn
      simp [hn] at hs
    refine .cons (.of_unnamed (unnamed_sign s) fun _ => ?_) (ih hts ?_ ?_)
    · exact ⟨fun _ => hd.mp hdue, fun _ => ⟨s, rfl⟩⟩
    · simp [Form.AwaitsValue]
    · rwa [List.map_cons, getLast?_cons_or] at hl
  | case3 column due c rest hs op rest' hc ih =>
    obtain ⟨ts, hts, rfl⟩ := Option.map_eq_some_iff.mp h
    refine .cons (.of_unnamed (unnamed_connective op) fun hp => ?_) (ih hts ?_ ?_)
    · have hop : op.spelling = "+" ∨ op.spelling = "-" := by
        simpa [Form.IsPlusOrMinus] using hp
      have hdue : due ≠ true := by
        rintro rfl
        exact ofSpelling?_of_leadingConnective? hc hop hs
      exact ⟨by simp, fun ha => absurd (hd.mpr ha) hdue⟩
    · simp [Form.AwaitsValue]
    · rwa [List.map_cons, getLast?_cons_or] at hl
  | case4 => cases h

/-! ### Pieces -/

/-- A run of operators has at least one character. -/
def Placed.Filled (q : Placed) : Prop := q.piece ≠ .operators []

theorem filled_of_cuts {column : Nat} {cs : List Char} {ps : List Placed}
    (h : Cuts column cs ps) : ∀ q ∈ ps, q.Filled := by
  induction h with
  | nil => exact List.forall_mem_nil _
  | blank _ _ ih => exact ih
  | piece hp _ _ ih => exact List.forall_mem_cons.mpr ⟨by cases hp <;> nofun, ih⟩

section
variable {line : Int} {previous : Option Form} {pieces : List Placed} {ts later : List Token}
  {last : Token}

/-- A mark among tokens that end a line was a mark among the pieces. -/
theorem mark_of_ofPieces {t : Token} {us : List Token} {m : Mark}
    (h : ofPieces line previous pieces = .ok ts) (hf : ∀ q ∈ pieces, q.Filled)
    (hlast : last.form = .endLine) (he : ts ++ last :: later = t :: us)
    (ht : t.form = .mark m) :
    ∃ column rest ts', pieces = ⟨column, .mark m⟩ :: rest ∧ (∀ q ∈ rest, q.Filled) ∧
      t = ⟨.mark m, ⟨line, column⟩⟩ ∧ ofPieces line (some (.mark m)) rest = .ok ts' ∧
      us = ts' ++ last :: later := by
  fun_induction ofPieces line previous pieces generalizing ts with
  | case1 =>
    cases h
    cases he
    rw [hlast] at ht
    cases ht
  | case2 =>
    obtain ⟨ts', -, h⟩ := bind_eq_ok.mp h
    cases h
    cases he
    cases ht
  | case3 previous column chars rest =>
    obtain ⟨ts', -, h⟩ := bind_eq_ok.mp h
    cases h
    cases he
    have hr := wordRead previous rest (String.ofList chars)
    rw [show calledForm previous rest _ = _ from ht] at hr
    cases hr
  | case4 previous column chars rest tokens hs =>
    obtain ⟨ts', -, h⟩ := bind_eq_ok.mp h
    cases h
    have hc : chars ≠ [] := by
      rintro rfl
      exact (List.forall_mem_cons.mp hf).1 rfl
    obtain ⟨first, more, rfl⟩ := List.exists_cons_of_ne_nil (splitRun_ne_nil hs hc)
    cases he
    rcases splitRun_operators hs t (List.mem_cons_self ..) with ⟨s, hs⟩ | ⟨c, hc⟩
    · rw [hs] at ht
      cases ht
    · rw [hc] at ht
      cases ht
  | case5 => cases h
  | case6 =>
    obtain ⟨form, hn, h⟩ := bind_eq_ok.mp h
    obtain ⟨ts', -, h⟩ := bind_eq_ok.mp h
    cases h
    cases he
    rcases numeralForm_cases hn with ⟨n, rfl⟩ | ⟨x, rfl⟩ <;> cases ht
  | case7 =>
    obtain ⟨ts', -, h⟩ := bind_eq_ok.mp h
    cases h
    cases he
    cases ht
  | case8 previous column m' rest =>
    obtain ⟨ts', hts, h⟩ := bind_eq_ok.mp h
    cases h
    cases he
    cases ht
    exact ⟨column, rest, ts', rfl, (List.forall_mem_cons.mp hf).2, rfl, hts, rfl⟩

/-- A word that makes no array type stands in its context, if what follows it is read from the
pieces behind it. -/
theorem WordRead.inContext {column : Nat} {word : String} {form : Form}
    (hr : WordRead previous pieces word form)
    (hw : ∀ text c₁ c₂ rest, wordForm previous word = .typeName text →
      pieces = ⟨c₁, .mark .openBracket⟩ :: ⟨c₂, .mark .closeBracket⟩ :: rest → False)
    (h : ofPieces line (some form) pieces = .ok ts) (hf : ∀ q ∈ pieces, q.Filled)
    (hlast : last.form = .endLine) :
    InContext previous ⟨form, ⟨line, column⟩⟩ (ts ++ last :: later) := by
  cases hr with
  | typeName text ht =>
    refine ⟨nofun, nofun, fun _ _ => ⟨nofun, nofun⟩, ?_, by simp [Form.IsPlusOrMinus]⟩
    rintro name - ⟨us, hus⟩
    obtain ⟨t₁, us₁, he₁, ht₁, hus₁⟩ := List.map_eq_cons_iff.mp hus.symm
    obtain ⟨c₁, rest₁, ts₁, rfl, hf₁, -, h₁, rfl⟩ := mark_of_ofPieces h hf hlast he₁ ht₁
    obtain ⟨t₂, us₂, he₂, ht₂, -⟩ := List.map_eq_cons_iff.mp hus₁
    obtain ⟨c₂, rest₂, ts₂, rfl, -⟩ := mark_of_ofPieces h₁ hf₁ hlast he₂ ht₂
    exact hw text c₁ c₂ rest₂ ht rfl
  | keyword k => exact .of_free (by simp [Form.Free, Form.Unnamed, Form.IsPlusOrMinus])
  | bool b => exact .of_free (by simp [Form.Free, Form.Unnamed, Form.IsPlusOrMinus])
  | name hc hp =>
    refine ⟨nofun, fun _ _ hnext => hp ?_, fun hp => absurd hp hc, nofun,
      by simp [Form.IsPlusOrMinus]⟩
    obtain ⟨next, hnext, hm⟩ := hnext
    obtain ⟨us, he⟩ := List.head?_eq_some_iff.mp hnext
    obtain ⟨c, rest, -, rfl, -⟩ := mark_of_ofPieces h hf hlast he hm
    exact ⟨c, rest, rfl⟩
  | call hc hp hfollow =>
    obtain ⟨c, rest, rfl⟩ := hfollow
    refine ⟨fun _ _ => ⟨hp, ?_⟩, nofun, fun hp => absurd hp hc, nofun,
      by simp [Form.IsPlusOrMinus]⟩
    rw [ofPieces] at h
    obtain ⟨ts', -, h⟩ := bind_eq_ok.mp h
    cases h
    exact ⟨_, rfl, rfl, rfl⟩

theorem ofPieces_inContexts (h : ofPieces line previous pieces = .ok ts)
    (hf : ∀ q ∈ pieces, q.Filled) (hlast : last.form = .endLine)
    (hl : InContexts (some .endLine) later) : InContexts previous (ts ++ last :: later) := by
  fun_induction ofPieces line previous pieces generalizing ts with
  | case1 previous =>
    cases h
    refine .cons (.of_free (hlast ▸ free_endLine)) ?_
    rwa [hlast]
  | case2 =>
    rename_i ih
    obtain ⟨ts', hts, h⟩ := bind_eq_ok.mp h
    cases h
    simp only [List.forall_mem_cons] at hf
    exact .cons (.of_free (free_arrayTypeName _)) (ih hts hf.2.2.2)
  | case3 =>
    rename_i hw form ih
    obtain ⟨ts', hts, h⟩ := bind_eq_ok.mp h
    cases h
    have hf := (List.forall_mem_cons.mp hf).2
    exact .cons ((wordRead ..).inContext hw hts hf hlast) (ih hts hf)
  | case4 previous column chars rest tokens hs ih =>
    obtain ⟨ts', hts, h⟩ := bind_eq_ok.mp h
    cases h
    rw [List.append_assoc]
    refine splitRun_inContexts hs wantsOperand_eq_true_iff ?_
    have := ih hts (List.forall_mem_cons.mp hf).2
    simpa only [List.getLast?_map, Option.orElse_eq_or, Option.orElse_eq_orElse] using this
  | case5 => cases h
  | case6 previous column chars rest ih =>
    obtain ⟨form, hn, h⟩ := bind_eq_ok.mp h
    obtain ⟨ts', hts, h⟩ := bind_eq_ok.mp h
    cases h
    exact .cons (.of_free (free_numeralForm hn)) (ih form hts (List.forall_mem_cons.mp hf).2)
  | case7 =>
    rename_i ih
    obtain ⟨ts', hts, h⟩ := bind_eq_ok.mp h
    cases h
    exact .cons (.of_free (free_string _)) (ih hts (List.forall_mem_cons.mp hf).2)
  | case8 previous column m rest ih =>
    obtain ⟨ts', hts, h⟩ := bind_eq_ok.mp h
    cases h
    exact .cons (.of_free (free_mark m)) (ih hts (List.forall_mem_cons.mp hf).2)

end

/-! ### Lines -/

theorem ofLine_inContexts {number : Int} {chars : List Char} {ts later : List Token}
    (h : ofLine number chars = .ok ts) (hl : InContexts none later) :
    InContexts none (ts ++ later) := by
  obtain ⟨ps, body, hc, hb, rfl⟩ := ofLine_eq_ok_iff.mp h
  rw [List.append_assoc]
  exact ofPieces_inContexts hb (filled_of_cuts hc) rfl hl.behindLine

theorem ofLinesFrom_inContexts {number : Int} {lines : List String} {ts : List Token}
    (h : ofLinesFrom number lines = .ok ts) : InContexts none ts := by
  induction lines generalizing number ts with
  | nil =>
    cases h
    exact inContexts_nil none
  | cons line lines ih =>
    simp only [ofLinesFrom, bind_eq_ok, mapError_eq_ok, pure_eq_ok] at h
    obtain ⟨first, hfirst, more, hmore, rfl⟩ := h
    exact ofLine_inContexts hfirst (ih hmore)

/-- Behind the name of a call stands an opening parenthesis, and behind other tokens anything. -/
def Opens (t next : Token) : Prop := ∀ text, t.form = .call text → next.form = .mark .openParen

theorem InContexts.isChain {previous : Option Form} {ts : List Token}
    (h : InContexts previous ts) : ts.IsChain Opens := by
  induction ts generalizing previous with
  | nil => exact .nil
  | cons t ts ih =>
    refine List.isChain_cons.mpr ⟨fun next hn text ht => ?_, ih h.tail⟩
    obtain ⟨-, next', hn', hm, -⟩ := h.head.call text ht
    obtain rfl : next' = next := Option.some.inj (hn'.symm.trans hn)
    exact hm

/-- Every call in a line is directly in front of a parenthesis. -/
theorem isChain_of_ofLine {number : Int} {chars : List Char} {tokens : List Token}
    (h : ofLine number chars = .ok tokens) : tokens.IsChain Opens := by
  have := ofLine_inContexts h (inContexts_nil none)
  rw [List.append_nil] at this
  exact this.isChain

theorem isChain_of_isInfix {ts line : List Token} (h : line.IsChain Opens) (hs : ts <:+: line) :
    ts.IsChain Opens :=
  List.IsChain.infix h hs

/-- A call is directly in front of a parenthesis and no header introduces it; a name in front of one
is introduced; behind a colon stands no name; no type name has a pair of brackets behind it; and a
plus or minus is a sign where a value is still to come. -/
theorem tokens_in_context {lines : List String} {ts : List Token} (h : ofLines lines = .ok ts) :
    InContexts none ts :=
  ofLinesFrom_inContexts h

/-- A header with an array parameter, and a call with signs at the start and behind a connective. -/
def signedLines : List String := ["function f(a: int [ ])", "-1", "g(a[+0] - -b)"]

theorem signedLines_in_context : ∃ ts, ofLines signedLines = .ok ts ∧
    ts.map (·.form) =
      [.keyword .functionWord, .name "f", .mark .openParen, .name "a", .mark .colon,
        .arrayTypeName "int", .mark .closeParen, .endLine, .sign .negate, .int 1, .endLine,
        .call "g", .mark .openParen, .name "a", .mark .openBracket, .sign .positive, .int 0,
        .mark .closeBracket, .connective (.operate .subtract), .sign .negate, .name "b",
        .mark .closeParen, .endLine] ∧ InContexts none ts := by
  have hforms : (ofLines signedLines).toOption.map (List.map (·.form)) = some
      [.keyword .functionWord, .name "f", .mark .openParen, .name "a", .mark .colon,
        .arrayTypeName "int", .mark .closeParen, .endLine, .sign .negate, .int 1, .endLine,
        .call "g", .mark .openParen, .name "a", .mark .openBracket, .sign .positive, .int 0,
        .mark .closeBracket, .connective (.operate .subtract), .sign .negate, .name "b",
        .mark .closeParen, .endLine] := by decide +kernel
  obtain ⟨ts, hts, hn⟩ := Option.map_eq_some_iff.mp hforms
  have hts := eq_ok_of_toOption hts
  exact ⟨ts, hts, hn, tokens_in_context hts⟩

end AlgoFrontEnd.Token
