import AlgoFrontEnd.Proofs.Success
import AlgoFrontEnd.Proofs.Token.Cutting
import AlgoFrontEnd.Proofs.Token.Names
import Mathlib.Data.List.Forall2

/-! Tokens of a line against its characters. Main statement: the tokens stand on spans of the line,
one behind the other and each written in the characters of its span, and only blanks are left. -/
namespace AlgoFrontEnd.Token

/-- The characters that a token is written in, in view of what follows it. -/
def Form.Written (span rest : List Char) : Form → Prop
  | .mark m => span = [m.char]
  | .endLine => False
  | .int value => span ≠ [] ∧ (∀ c ∈ span, c.isDigit = true) ∧
      value = Nat.ofDigitChars 10 span 0 ∧ Ends isNumeralChar rest
  | .float value => ∃ whole behind, span = whole ++ '.' :: behind ∧ whole ++ behind ≠ [] ∧
      (∀ c ∈ whole ++ behind, c.isDigit = true) ∧ Number.real whole behind = .ok value ∧
      Ends isNumeralChar rest
  | .bool value => span = (boolText value).toList
  | .string text => span = '"' :: (text.toList ++ ['"'])
  | .typeName text | .name text | .call text => span = text.toList
  | .arrayTypeName text => ∃ gap gap', Gap gap ∧ Gap gap' ∧
      span = text.toList ++ (gap ++ '[' :: (gap' ++ [']']))
  | .connective c => span = c.spelling.toList
  | .sign s => span = s.spelling.toList
  | .keyword k => span = k.word.toList

/-- A stretch of a line: the number of characters before it and of those in it. -/
structure Span where
  start : Nat
  length : Nat
  deriving DecidableEq, Repr

namespace Span

/-- The number of characters before its end. -/
def stop (s : Span) : Nat := s.start + s.length

def text (s : Span) (line : List Char) : List Char := (line.drop s.start).take s.length

end Span

/-- A token starts where its span does and is written in the characters of it. -/
structure StandsOn (number : Int) (line : List Char) (t : Token) (s : Span) : Prop where
  position : t.position = ⟨number, s.start + 1⟩
  pos : 0 < s.length
  inside : s.stop ≤ line.length
  written : t.form.Written (s.text line) (line.drop s.stop)

/-- Tokens stand on spans of a line that lie apart and in the order of the tokens, with nothing
but blanks outside of them. -/
structure Covers (number : Int) (chars : List Char) (ts : List Token) (spans : List Span) :
    Prop where
  placed : List.Forall₂ (StandsOn number chars) ts spans
  apart : spans.Pairwise fun s s' => s.stop ≤ s'.start
  blank : ∀ i c, chars[i]? = some c → (∀ s ∈ spans, ¬ (s.start ≤ i ∧ i < s.stop)) →
    Text.isBlank c = true

/-- Tokens that characters are written in from a column on. -/
inductive Tiles (number : Int) : Nat → List Char → List Token → Prop
  | nil (column : Nat) : Tiles number column [] []
  | blank {column : Nat} {c : Char} {rest : List Char} {ts : List Token}
      (hc : Text.isBlank c = true) (h : Tiles number (column + 1) rest ts) :
      Tiles number column (c :: rest) ts
  | token {column next : Nat} {form : Form} {span rest : List Char} {ts : List Token}
      (hs : span ≠ []) (hw : form.Written span rest) (hn : column + span.length = next)
      (h : Tiles number next rest ts) :
      Tiles number column (span ++ rest) (⟨form, ⟨number, column⟩⟩ :: ts)

section
variable {number : Int} {column : Nat} {cs : List Char} {ts : List Token}

/-! ### Blanks -/

theorem isNumeralChar_of_isBlank {c : Char} (h : Text.isBlank c = true) :
    isNumeralChar c = false := by
  rw [Bool.eq_false_iff]
  intro hc
  have := (apart_of_run? (run?_numeral hc)).1
  simp [h] at this

theorem Ends.append_gap {rest gap : List Char} (h : Ends isNumeralChar rest) (hg : Gap gap) :
    Ends isNumeralChar (rest ++ gap) := by
  cases rest with
  | nil =>
    intro c hc
    exact isNumeralChar_of_isBlank (hg c (List.mem_of_mem_head? hc))
  | cons c rest => exact h

theorem Form.Written.append_gap {form : Form} {span rest gap : List Char}
    (h : form.Written span rest) (hg : Gap gap) : form.Written span (rest ++ gap) := by
  cases form with
  | int value =>
    obtain ⟨hn, hd, hv, he⟩ := h
    exact ⟨hn, hd, hv, he.append_gap hg⟩
  | float value =>
    obtain ⟨whole, behind, hs, hn, hd, hv, he⟩ := h
    exact ⟨whole, behind, hs, hn, hd, hv, he.append_gap hg⟩
  | _ => exact h

theorem Tiles.of_gap {gap : List Char} (hg : Gap gap) (column : Nat) :
    Tiles number column gap [] := by
  induction gap generalizing column with
  | nil => exact .nil column
  | cons c gap ih =>
    obtain ⟨hc, hg⟩ := List.forall_mem_cons.mp hg
    exact .blank hc (ih hg _)

theorem Tiles.append_gap {gap : List Char} (h : Tiles number column cs ts) (hg : Gap gap) :
    Tiles number column (cs ++ gap) ts := by
  induction h with
  | nil column => exact .of_gap hg column
  | blank hc h ih => exact .blank hc ih
  | token hs hw hn h ih =>
    rw [List.append_assoc]
    exact .token hs (hw.append_gap hg) hn ih

theorem Tiles.gap_append {gap : List Char} (hg : Gap gap)
    (h : Tiles number (column + gap.length) cs ts) : Tiles number column (gap ++ cs) ts := by
  induction gap generalizing column with
  | nil => exact h
  | cons c gap ih =>
    obtain ⟨hc, hg⟩ := List.forall_mem_cons.mp hg
    refine .blank hc (ih hg ?_)
    rwa [List.length_cons, Nat.add_comm gap.length, ← Nat.add_assoc] at h

/-! ### Spans -/

/-- Tokens in a row stand on spans. The characters before them are those of a line up to there. -/
theorem Tiles.exists_spans (h : Tiles number column cs ts) {before : List Char}
    (hb : column = before.length + 1) :
    ∃ spans, List.Forall₂ (StandsOn number (before ++ cs)) ts spans ∧
      spans.Pairwise (fun s s' => s.stop ≤ s'.start) ∧ (∀ s ∈ spans, before.length ≤ s.start) ∧
      ∀ i c, before.length ≤ i → (before ++ cs)[i]? = some c →
        (∀ s ∈ spans, ¬ (s.start ≤ i ∧ i < s.stop)) → Text.isBlank c = true := by
  induction h generalizing before with
  | nil column =>
    refine ⟨[], .nil, .nil, by simp, ?_⟩
    intro i c hi hc
    simp [List.getElem?_eq_none hi] at hc
  | @blank column c rest ts hc h ih =>
    have hnext : column + 1 = (before ++ [c]).length + 1 := by simp [hb]
    obtain ⟨spans, hp, ha, hs, hout⟩ := ih hnext
    rw [List.append_assoc, List.singleton_append] at hp hout
    rw [List.length_append, List.length_singleton] at hs hout
    refine ⟨spans, hp, ha, fun s hm => Nat.le_of_succ_le (hs s hm), ?_⟩
    intro i x hi hx ho
    rcases Nat.eq_or_lt_of_le hi with rfl | hi
    · have : c = x := by simpa using hx
      exact this ▸ hc
    · exact hout i x hi hx ho
  | @token column next form span rest ts hs hw hn h ih =>
    have hnext : next = (before ++ span).length + 1 := by
      simp
      omega
    obtain ⟨spans, hp, ha, hle, hout⟩ := ih hnext
    rw [List.append_assoc] at hp hout
    rw [List.length_append] at hle hout
    have ht : Span.text ⟨before.length, span.length⟩ (before ++ (span ++ rest)) = span := by
      simp [Span.text]
    have hd : (before ++ (span ++ rest)).drop (Span.stop ⟨before.length, span.length⟩) = rest := by
      simp [Span.stop, ← List.append_assoc]
    have first : StandsOn number (before ++ (span ++ rest)) ⟨form, ⟨number, column⟩⟩
        ⟨before.length, span.length⟩ := by
      refine ⟨by rw [hb]; rfl, List.length_pos_iff.mpr hs, ?_, by rwa [ht, hd]⟩
      simp [Span.stop]
    refine ⟨⟨before.length, span.length⟩ :: spans, .cons first hp,
      List.pairwise_cons.mpr ⟨hle, ha⟩, ?_, ?_⟩
    · refine List.forall_mem_cons.mpr ⟨Nat.le_refl _, fun s hm => ?_⟩
      exact Nat.le_trans (Nat.le_add_right ..) (hle s hm)
    · intro i c hi hc ho
      obtain ⟨hfirst, ho⟩ := List.forall_mem_cons.mp ho
      refine hout i c ?_ hc ho
      simp only [Span.stop] at hfirst
      omega

theorem Tiles.covers (h : Tiles number 1 cs ts) : ∃ spans, Covers number cs ts spans := by
  have hb : 1 = ([] : List Char).length + 1 := rfl
  obtain ⟨spans, hp, ha, -, hout⟩ := h.exists_spans hb
  exact ⟨spans, hp, ha, fun i c => hout i c (Nat.zero_le i)⟩

end

/-! ### Numerals -/

theorem parts_ne_nil (cs : List Char) : Number.parts cs ≠ [] := by
  fun_cases Number.parts cs <;> simp

/-- The stretches between points make up the whole again. -/
theorem intercalate_parts (cs : List Char) : ['.'].intercalate (Number.parts cs) = cs := by
  fun_induction Number.parts cs with
  | case1 => rfl
  | case2 rest ih =>
    rw [List.intercalate_cons_of_ne_nil (parts_ne_nil rest), ih]
    rfl
  | case3 c rest _ hp => exact absurd hp (parts_ne_nil rest)
  | case4 c rest _ first more hp ih =>
    rw [hp] at ih
    cases more with
    | nil => simpa using ih
    | cons second more =>
      rw [List.intercalate_cons_cons] at ih ⊢
      rw [← ih]
      rfl

theorem not_mem_parts {cs : List Char} : ∀ part ∈ Number.parts cs, '.' ∉ part := by
  fun_induction Number.parts cs with
  | case1 => simp
  | case2 rest ih => simpa using ih
  | case3 c rest _ hp => exact absurd hp (parts_ne_nil rest)
  | case4 c rest hc first more hp ih =>
    rw [hp] at ih
    obtain ⟨hfirst, hmore⟩ := List.forall_mem_cons.mp ih
    refine List.forall_mem_cons.mpr ⟨?_, hmore⟩
    intro hm
    rcases List.mem_cons.mp hm with rfl | hm
    · exact hc rfl
    · exact hfirst hm

theorem ofDigits_eq_ofDigitChars (cs : List Char) :
    Number.ofDigits cs = Nat.ofDigitChars 10 cs 0 := by
  rw [Nat.ofDigitChars_eq_foldl, Number.ofDigits]
  congr
  funext value c
  rw [Number.digitValue, Nat.mul_comm]

theorem isDigit_of_isNumeralChar {c : Char} (h : isNumeralChar c = true) (hc : c ≠ '.') :
    c.isDigit = true := by
  simpa [isNumeralChar, hc] using h

/-- A numeral is read as the number that its characters spell. -/
theorem written_of_numeralForm {chars rest : List Char} {column : Nat} {form : Form}
    (hc : ∀ c ∈ chars, isNumeralChar c = true) (hr : Ends isNumeralChar rest)
    (h : numeralForm chars column = .ok form) : form.Written chars rest := by
  have hparts := intercalate_parts chars
  have hpoint := @not_mem_parts chars
  unfold numeralForm at h
  split at h
  · rename_i hd
    split at h
    · rename_i digits hp
      obtain ⟨n, hn, rfl⟩ := map_eq_ok.mp h
      rw [hp] at hparts hpoint
      obtain rfl : digits = chars := by simpa using hparts
      have hdot : '.' ∉ digits := by simpa using hpoint
      refine ⟨?_, ?_, ?_, hr⟩
      · rintro rfl
        simp at hd
      · intro c hm
        exact isDigit_of_isNumeralChar (hc c hm) (ne_of_mem_of_not_mem hm hdot)
      · rw [mapError_eq_ok, Number.integer] at hn
        split at hn
        · cases hn
          rw [ofDigits_eq_ofDigitChars]
        · cases hn
    · rename_i whole behind hp
      obtain ⟨x, hx, rfl⟩ := map_eq_ok.mp h
      rw [hp] at hparts hpoint
      have hs : chars = whole ++ '.' :: behind := by simpa [List.intercalate] using hparts.symm
      have hdot : '.' ∉ whole ++ behind := by simpa using hpoint
      refine ⟨whole, behind, hs, ?_, ?_, mapError_eq_ok.mp hx, hr⟩
      · intro hn
        obtain ⟨rfl, rfl⟩ := List.append_eq_nil_iff.mp hn
        simp [hs] at hd
      · intro c hm
        have hin : c ∈ chars := by
          rw [hs]
          rcases List.mem_append.mp hm with hm | hm
          · exact List.mem_append_left _ hm
          · exact List.mem_append_right _ (List.mem_cons_of_mem _ hm)
        exact isDigit_of_isNumeralChar (hc c hin) (ne_of_mem_of_not_mem hm hdot)
    · cases h
  · cases h

/-! ### Runs of operators -/

theorem char_of_ofSpelling? {c : Char} {s : Sign} (h : Sign.ofSpelling? c.toString = some s) :
    s.spelling.toList = [c] := by
  have : s.spelling = c.toString := by simpa using List.find?_some h
  rw [this]
  simp

/-- The operators of a run stand right behind one another. -/
theorem tiles_of_splitRun {number : Int} {column next : Nat} {due : Bool} {cs rest : List Char}
    {ts us : List Token} (h : splitRun number column due cs = some ts)
    (hn : column + cs.length = next) (hr : Tiles number next rest us) :
    Tiles number column (cs ++ rest) (ts ++ us) := by
  fun_induction splitRun number column due cs generalizing ts with
  | case1 column due =>
    cases h
    rw [List.length_nil, Nat.add_zero] at hn
    rwa [hn]
  | case2 column due c more s hs ih =>
    obtain ⟨ts, hts, rfl⟩ := Option.map_eq_some_iff.mp h
    have hspelled : Sign.ofSpelling? c.toString = some s := by
      split at hs
      · exact hs
      · cases hs
    have hw : (Form.sign s).Written [c] (more ++ rest) := (char_of_ofSpelling? hspelled).symm
    rw [List.length_cons] at hn
    have := Tiles.token (List.cons_ne_nil c []) hw rfl (ih hts (by omega))
    exact this
  | case3 column due c more hs op more' hc ih =>
    obtain ⟨ts, hts, rfl⟩ := Option.map_eq_some_iff.mp h
    have hspelled := spelling_of_leadingConnective? hc
    rw [← hspelled, List.length_append, String.length_toList] at hn
    rw [← hspelled, List.append_assoc]
    exact .token (spelling_ne_nil op) rfl (by rw [String.length_toList]) (ih hts (by omega))
  | case4 => cases h

/-! ### Words -/

/-- A word is read as a token that is spelled like it. -/
theorem written_of_wordForm {previous : Option Form} {chars rest : List Char} :
    (wordForm previous (String.ofList chars)).Written chars rest := by
  unfold wordForm
  split
  · exact String.toList_ofList.symm
  · split
    · rename_i k hk
      have : k.word = String.ofList chars := by simpa using List.find?_some hk
      show chars = k.word.toList
      rw [this, String.toList_ofList]
    · split
      · rename_i ht
        show chars = "true".toList
        rw [← ht, String.toList_ofList]
      · split
        · rename_i hf
          show chars = "false".toList
          rw [← hf, String.toList_ofList]
        · split <;> exact String.toList_ofList.symm

theorem written_calledForm {previous : Option Form} {following : List Placed} {form : Form}
    {span rest : List Char} (h : form.Written span rest) :
    (calledForm previous following form).Written span rest := by
  unfold calledForm
  split
  · split
    · split <;> exact h
    · exact h
  · exact h

theorem written_arrayTypeName {previous : Option Form} {chars gap gap' rest : List Char}
    {text : String} (h : wordForm previous (String.ofList chars) = .typeName text)
    (hg : Gap gap) (hg' : Gap gap') :
    (Form.arrayTypeName text).Written (chars ++ (gap ++ '[' :: (gap' ++ [']']))) rest := by
  have hw : (wordForm previous (String.ofList chars)).Written chars rest := written_of_wordForm
  rw [h] at hw
  exact ⟨gap, gap', hg, hg', congrArg (· ++ _) hw⟩

/-! ### Lines -/

/-- The first piece of some characters, behind blanks. -/
theorem Cuts.cons_inv {column : Nat} {cs : List Char} {q : Placed} {ps : List Placed}
    (h : Cuts column cs (q :: ps)) : ∃ gap span rest, Gap gap ∧ cs = gap ++ (span ++ rest) ∧
      q.column = column + gap.length ∧ q.piece.Written span rest ∧
      Cuts (q.column + span.length) rest ps := by
  generalize hq : q :: ps = qs at h
  induction h with
  | nil => cases hq
  | @blank column c rest _ hc h ih =>
    obtain ⟨gap, span, rest', hg, rfl, hcol, hw, hcut⟩ := ih hq
    refine ⟨c :: gap, span, rest', List.forall_mem_cons.mpr ⟨hc, hg⟩, rfl, ?_, hw, hcut⟩
    rw [hcol, List.length_cons]
    omega
  | @piece column next p span rest ps' hw hn h ih =>
    cases hq
    subst hn
    exact ⟨[], span, rest, by simp [Gap], rfl, rfl, hw, h⟩

theorem Cuts.gap_of_nil {column : Nat} {cs : List Char} (h : Cuts column cs []) : Gap cs := by
  generalize hq : [] = qs at h
  induction h with
  | nil => simp [Gap]
  | blank hc h ih => exact List.forall_mem_cons.mpr ⟨hc, ih hq⟩
  | piece => cases hq

/-- The tokens of pieces stand where the pieces do. -/
theorem tiles_of_ofPieces {number : Int} {previous : Option Form} {column : Nat} {cs : List Char}
    {ps : List Placed} {ts : List Token} (hc : Cuts column cs ps)
    (h : ofPieces number previous ps = .ok ts) : Tiles number column cs ts := by
  fun_induction ofPieces number previous ps generalizing column cs ts with
  | case1 =>
    cases h
    exact .of_gap hc.gap_of_nil column
  | case2 previous k chars text k₁ k₂ rest hword form =>
    rename_i ih
    simp only [bind_eq_ok, pure_eq_ok] at h
    obtain ⟨ts, hts, rfl⟩ := h
    obtain ⟨gap, span, cs₁, hg, rfl, rfl, hw, hc⟩ := hc.cons_inv
    obtain ⟨gap₁, span₁, cs₂, hg₁, rfl, hk₁, hw₁, hc₁⟩ := hc.cons_inv
    obtain ⟨gap₂, span₂, cs₃, hg₂, rfl, hk₂, hw₂, hc₂⟩ := hc₁.cons_inv
    cases hw₁
    cases hw₂
    cases hw
    have : Tiles number (column + gap.length) _ _ :=
      .token (by simp) (written_arrayTypeName hword hg₁ hg₂) ?_ (ih hc₂ hts)
    · apply Tiles.gap_append hg
      simpa [Mark.char] using this
    · simp at hk₁ hk₂ ⊢
      omega
  | case3 previous k chars rest hform form =>
    rename_i ih
    simp only [bind_eq_ok, pure_eq_ok] at h
    obtain ⟨ts, hts, rfl⟩ := h
    obtain ⟨gap, span, cs₁, hg, rfl, rfl, hw, hc⟩ := hc.cons_inv
    cases hw
    exact .gap_append hg (.token (by simp) (written_calledForm written_of_wordForm) rfl (ih hc hts))
  | case4 previous k chars rest tokens hr ih =>
    simp only [bind_eq_ok, pure_eq_ok] at h
    obtain ⟨ts, hts, rfl⟩ := h
    obtain ⟨gap, span, cs₁, hg, rfl, rfl, hw, hc⟩ := hc.cons_inv
    cases hw
    exact .gap_append hg (tiles_of_splitRun hr rfl (ih hc hts))
  | case5 => cases h
  | case6 previous k chars rest ih =>
    simp only [bind_eq_ok, pure_eq_ok] at h
    obtain ⟨form, hf, ts, hts, rfl⟩ := h
    obtain ⟨gap, span, cs₁, hg, rfl, rfl, hw, hc⟩ := hc.cons_inv
    cases hw with
    | numeral hx hm he =>
      have hw := written_of_numeralForm (List.forall_mem_cons.mpr ⟨hx, hm⟩) he hf
      exact .gap_append hg (.token (by simp) hw rfl (ih form hc hts))
  | case7 previous k chars rest form =>
    rename_i ih
    simp only [bind_eq_ok, pure_eq_ok] at h
    obtain ⟨ts, hts, rfl⟩ := h
    obtain ⟨gap, span, cs₁, hg, rfl, rfl, hw, hc⟩ := hc.cons_inv
    cases hw
    have hw : (Form.string (String.ofList chars)).Written ('"' :: (chars ++ ['"'])) cs₁ := by
      simp [Form.Written]
    exact .gap_append hg (.token (by simp) hw rfl (ih hc hts))
  | case8 previous k m rest ih =>
    simp only [bind_eq_ok, pure_eq_ok] at h
    obtain ⟨ts, hts, rfl⟩ := h
    obtain ⟨gap, span, cs₁, hg, rfl, rfl, hw, hc⟩ := hc.cons_inv
    cases hw
    exact .gap_append hg (.token (by simp) rfl rfl (ih hc hts))


/-- A line has tokens exactly if it is cut without a stop and every piece has a meaning. -/
theorem ofLine_eq_ok_iff {number : Int} {chars : List Char} {ts : List Token} :
    ofLine number chars = .ok ts ↔ ∃ ps body, Cuts 1 chars ps ∧
      ofPieces number none ps = .ok body ∧
      ts = body ++ [⟨.endLine, ⟨number, chars.length + 1⟩⟩] := by
  unfold ofLine
  simp only [bind_eq_ok]
  constructor
  · rintro ⟨body, hb, h⟩
    split at h
    · cases h
    · rename_i hs
      rw [pure_eq_ok] at h
      exact ⟨_, body, cuts_of_cut hs, hb, h.symm⟩
  · rintro ⟨ps, body, hc, hb, rfl⟩
    rw [cut_eq_iff.mpr hc]
    exact ⟨body, hb, rfl⟩

theorem exists_append_of_dropEndWhile (drops : Char → Bool) (cs : List Char) :
    ∃ tail, cs = Text.dropEndWhile drops cs ++ tail ∧ ∀ c ∈ tail, drops c = true := by
  refine ⟨(cs.reverse.takeWhile drops).reverse, ?_, ?_⟩
  · rw [Text.dropEndWhile, ← List.reverse_append, List.takeWhile_append_dropWhile,
      List.reverse_reverse]
  · intro c hc
    exact List.mem_takeWhile_imp (List.mem_reverse.mp hc)

/-- The tokens of a line: those that it is covered by, and one behind the line without its break
that closes it. -/
def OfLine (number : Int) (line : String) (ts : List Token) : Prop :=
  ∃ body spans, ts = body ++ [⟨.endLine, ⟨number, (lineText line).length + 1⟩⟩] ∧
    Covers number line.toList body spans

theorem ofLine_of_lineText {number : Int} {line : String} {ts : List Token}
    (h : ofLine number (lineText line) = .ok ts) : OfLine number line ts := by
  obtain ⟨ps, body, hc, hb, rfl⟩ := ofLine_eq_ok_iff.mp h
  obtain ⟨tail, hline, htail⟩ :=
    exists_append_of_dropEndWhile (fun c => c = '\r' || c = '\n') line.toList
  have hg : Gap tail := by
    intro c hm
    have : c = '\r' ∨ c = '\n' := by simpa using htail c hm
    rcases this with rfl | rfl <;> rfl
  have ht := (tiles_of_ofPieces hc hb).append_gap hg
  rw [lineText, ← hline] at ht
  obtain ⟨spans, hs⟩ := ht.covers
  exact ⟨body, spans, rfl, hs⟩

theorem exists_ofLine {number : Int} {lines : List String} {ts : List Token}
    (h : ofLinesFrom number lines = .ok ts) :
    ∃ tss : List (List Token), ts = tss.flatten ∧ tss.length = lines.length ∧
      ∀ (i : Nat) (line : String) (lineTokens : List Token), lines[i]? = some line →
        tss[i]? = some lineTokens → OfLine (number + i) line lineTokens := by
  induction lines generalizing number ts with
  | nil =>
    cases h
    exact ⟨[], rfl, rfl, by simp⟩
  | cons line lines ih =>
    simp only [ofLinesFrom, bind_eq_ok, mapError_eq_ok, pure_eq_ok] at h
    obtain ⟨first, hfirst, more, hmore, rfl⟩ := h
    obtain ⟨tss, rfl, hlen, hlines⟩ := ih hmore
    refine ⟨first :: tss, rfl, by simp [hlen], ?_⟩
    intro i line' lineTokens hl ht
    cases i with
    | zero =>
      cases hl
      cases ht
      rw [Int.natCast_zero, Int.add_zero]
      exact ofLine_of_lineText hfirst
    | succ i =>
      have := hlines i line' lineTokens hl ht
      rwa [Int.add_assoc, Int.add_comm 1] at this

/-- No character of an accepted line is lost, doubled or displaced: the tokens of each line cover
it, and its last one marks its end. -/
theorem lines_covered {lines : List String} {ts : List Token} (h : ofLines lines = .ok ts) :
    ∃ tss : List (List Token), ts = tss.flatten ∧ tss.length = lines.length ∧
      ∀ (i : Nat) (line : String) (lineTokens : List Token), lines[i]? = some line →
        tss[i]? = some lineTokens → OfLine (i + 1) line lineTokens := by
  obtain ⟨tss, rfl, hlen, hlines⟩ := exists_ofLine h
  refine ⟨tss, rfl, hlen, ?_⟩
  intro i line lineTokens hl ht
  have := hlines i line lineTokens hl ht
  rwa [Int.add_comm] at this

/-- Lines with blanks inside an array type, a run of two operators, a quoted text and a carriage
return. -/
def spacedLines : List String := ["xs: int [ ] <- [1,-20]\r", " f(\"a  b\") == true "]

theorem spacedLines_covered : ∃ ts, ofLines spacedLines = .ok ts ∧ ts.length = 18 ∧
    ∃ tss : List (List Token), ts = tss.flatten ∧ tss.length = spacedLines.length ∧
      ∀ (i : Nat) (line : String) (lineTokens : List Token), spacedLines[i]? = some line →
        tss[i]? = some lineTokens → OfLine (i + 1) line lineTokens := by
  have hlen : (ofLines spacedLines).toOption.map List.length = some 18 := by decide +kernel
  obtain ⟨ts, hts, hn⟩ := Option.map_eq_some_iff.mp hlen
  have hts := eq_ok_of_toOption hts
  exact ⟨ts, hts, hn, lines_covered hts⟩

end AlgoFrontEnd.Token
