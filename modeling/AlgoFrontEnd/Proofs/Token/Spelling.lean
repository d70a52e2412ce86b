import AlgoFrontEnd.Proofs.Token.Lexing
import AlgoFrontEnd.Proofs.Token.Lines
import AlgoFrontEnd.Text.Lines

/-! What the tokens of a text can hold. Main statement: names are ordinary, types are identifiers,
integers are not negative, and quoted texts have neither quotes nor line feeds. -/
namespace AlgoFrontEnd

/-! ### Lines -/

/-- A line does not contain what ends it. -/
theorem Text.isLineBreak_of_mem_splitLines {cs : List Char} :
    ∀ line ∈ Text.splitLines cs, ∀ c ∈ line, Text.isLineBreak c = false := by
  fun_induction Text.splitLines cs with
  | case1 => simp
  | case2 rest ih => exact List.forall_mem_cons.mpr ⟨List.forall_mem_nil _, ih⟩
  | case3 c rest _ hc ih => exact List.forall_mem_cons.mpr ⟨List.forall_mem_nil _, ih⟩
  | case4 c rest _ hc hnone ih =>
    simpa using hc
  | case5 c rest _ hc line lines hmore ih =>
    rw [hmore] at ih
    obtain ⟨hline, hlines⟩ := List.forall_mem_cons.mp ih
    have hc : Text.isLineBreak c = false := by simpa using hc
    exact List.forall_mem_cons.mpr ⟨List.forall_mem_cons.mpr ⟨hc, hline⟩, hlines⟩

theorem Text.newline_notMem_lines (text : String) :
    ∀ line ∈ Text.lines text, '\n' ∉ line.toList := by
  intro line hline hm
  obtain ⟨cs, hcs, rfl⟩ := List.mem_map.mp hline
  rw [String.toList_ofList] at hm
  cases Text.isLineBreak_of_mem_splitLines cs hcs '\n' hm

namespace Token

/-! ### Pieces -/

/-- What a piece of a line without line feeds consists of. -/
def Piece.Sound : Piece → Prop
  | .word chars => Identifier (String.ofList chars)
  | .quoted chars => '"' ∉ chars ∧ '\n' ∉ chars
  | .operators _ | .numeral _ | .mark _ => True

theorem sound_of_cuts {column : Nat} {cs : List Char} {ps : List Placed} (h : Cuts column cs ps)
    (hcs : '\n' ∉ cs) : ∀ q ∈ ps, q.piece.Sound := by
  induction h with
  | nil => exact List.forall_mem_nil _
  | blank _ _ ih => exact ih fun hm => hcs (List.mem_cons_of_mem _ hm)
  | piece hp _ _ ih =>
    rw [List.mem_append, not_or] at hcs
    refine List.forall_mem_cons.mpr ⟨?_, ih hcs.2⟩
    cases hp with
    | word hc hm hr => exact .of_written (.word hc hm hr)
    | quoted hi =>
      have hspan := hcs.1
      simp only [List.mem_cons, List.mem_append, not_or] at hspan
      exact ⟨hi, hspan.2.1⟩
    | _ => trivial

/-! ### Tokens -/

/-- What a token of a text can hold. -/
def Form.Spelled : Form → Prop
  | .int value => 0 ≤ value
  | .string text => '"' ∉ text.toList ∧ '\n' ∉ text.toList
  | .typeName text | .arrayTypeName text => Identifier text
  | .name text | .call text => Ordinary text
  | _ => True

theorem spelled_wordForm {previous : Option Form} {word : String} (h : Identifier word) :
    (wordForm previous word).Spelled := by
  unfold wordForm
  split
  · exact h
  · rename_i hbase
    split
    · trivial
    · rename_i hkey
      split
      · trivial
      · split
        · trivial
        · split
          · exact h
          · refine ⟨h, ?_⟩
            have hkey : word ∉ Keyword.all.map (·.word) := by
              simpa [Keyword.ofWord?] using hkey
            simp_all [reserved]

theorem spelled_calledForm {previous : Option Form} {following : List Placed} {form : Form}
    (h : form.Spelled) : (calledForm previous following form).Spelled := by
  unfold calledForm
  split
  · split
    · split <;> exact h
    · exact h
  · exact h

theorem spelled_numeralForm {chars : List Char} {column : Nat} {form : Form}
    (h : numeralForm chars column = .ok form) : form.Spelled := by
  unfold numeralForm at h
  split at h
  · split at h
    · obtain ⟨value, hvalue, rfl⟩ := map_eq_ok.mp h
      rw [mapError_eq_ok, Number.integer] at hvalue
      split at hvalue
      · cases hvalue
        exact Int.natCast_nonneg _
      · cases hvalue
    · obtain ⟨x, -, rfl⟩ := map_eq_ok.mp h
      trivial
    · cases h
  · cases h

/-- The tokens of sound pieces are spelled well. -/
theorem spelled_of_ofPieces {line : Int} {previous : Option Form} {pieces : List Placed}
    {tokens : List Token} (hp : ∀ q ∈ pieces, q.piece.Sound)
    (h : ofPieces line previous pieces = .ok tokens) : ∀ t ∈ tokens, t.form.Spelled := by
  fun_induction ofPieces line previous pieces generalizing tokens with
  | case1 =>
    cases h
    exact List.forall_mem_nil _
  | case2 previous column chars text _ _ rest hword =>
    rename_i ih
    simp only [bind_eq_ok, pure_eq_ok] at h
    obtain ⟨ts, hts, rfl⟩ := h
    have hw : (wordForm previous (String.ofList chars)).Spelled :=
      spelled_wordForm (hp _ (List.mem_cons_self ..))
    rw [hword] at hw
    exact List.forall_mem_cons.mpr ⟨hw, ih (fun q hq => hp q (by simp [hq])) hts⟩
  | case3 =>
    rename_i ih
    simp only [bind_eq_ok, pure_eq_ok] at h
    obtain ⟨ts, hts, rfl⟩ := h
    have hw := hp _ (List.mem_cons_self ..)
    exact List.forall_mem_cons.mpr ⟨spelled_calledForm (spelled_wordForm hw),
      ih (fun q hq => hp q (by simp [hq])) hts⟩
  | case4 _ _ _ _ _ hr ih =>
    simp only [bind_eq_ok, pure_eq_ok] at h
    obtain ⟨ts, hts, rfl⟩ := h
    refine List.forall_mem_append.mpr ⟨?_, ih (fun q hq => hp q (by simp [hq])) hts⟩
    intro t ht
    rcases splitRun_operators hr t ht with ⟨s, hs⟩ | ⟨c, hc⟩
    · rw [hs]; trivial
    · rw [hc]; trivial
  | case5 => cases h
  | case6 _ _ _ _ ih =>
    simp only [bind_eq_ok, pure_eq_ok] at h
    obtain ⟨form, hf, ts, hts, rfl⟩ := h
    exact List.forall_mem_cons.mpr
      ⟨spelled_numeralForm hf, ih form (fun q hq => hp q (by simp [hq])) hts⟩
  | case7 previous column chars =>
    rename_i ih
    simp only [bind_eq_ok, pure_eq_ok] at h
    obtain ⟨ts, hts, rfl⟩ := h
    have hw : '"' ∉ chars ∧ '\n' ∉ chars := hp _ (List.mem_cons_self ..)
    rw [← String.toList_ofList (l := chars)] at hw
    exact List.forall_mem_cons.mpr ⟨hw, ih (fun q hq => hp q (by simp [hq])) hts⟩
  | case8 _ _ _ _ ih =>
    simp only [bind_eq_ok, pure_eq_ok] at h
    obtain ⟨ts, hts, rfl⟩ := h
    exact List.forall_mem_cons.mpr ⟨trivial, ih (fun q hq => hp q (by simp [hq])) hts⟩

theorem spelled_of_ofLine {number : Int} {chars : List Char} {tokens : List Token}
    (hc : '\n' ∉ chars) (h : ofLine number chars = .ok tokens) :
    ∀ t ∈ tokens, t.form.Spelled := by
  obtain ⟨ps, body, hcut, hbody, rfl⟩ := ofLine_eq_ok_iff.mp h
  exact List.forall_mem_append.mpr
    ⟨spelled_of_ofPieces (sound_of_cuts hcut hc) hbody, List.forall_mem_singleton.mpr trivial⟩

/-- The tokens of a text are spelled well. -/
theorem spelled_of_lines {text : String} {tokens : List Token}
    (h : ofLines (Text.lines text) = .ok tokens) : ∀ t ∈ tokens, t.form.Spelled := by
  intro t ht
  obtain ⟨i, line, us, hline, hus, ht⟩ := exists_line_of_mem h ht
  have hfeed := Text.newline_notMem_lines text line (List.mem_of_getElem? hline)
  obtain ⟨tail, htail, -⟩ :=
    exists_append_of_dropEndWhile (fun c => c = '\r' || c = '\n') line.toList
  rw [htail, List.mem_append, not_or] at hfeed
  exact spelled_of_ofLine hfeed.1 hus t ht

end Token
end AlgoFrontEnd
