import AlgoFrontEnd.Proofs.Scope.Mangling
import AlgoFrontEnd.Proofs.Success
import AlgoFrontEnd.Token.Lexer
import Mathlib.Data.List.TakeWhile

/-! Names in tokens consist of letters, digits and the low line. -/
namespace AlgoFrontEnd.Token

def Piece.Plain : Piece → Prop
  | .word chars => ∀ c ∈ chars, isNameChar c = true
  | _ => True

def Form.Plain : Form → Prop
  | .name text => AlgoFrontEnd.Plain text
  | _ => True

theorem plain_of_run? {c : Char} {piece : List Char → Piece} {continues : Char → Bool}
    (h : run? c = some (piece, continues)) (rest : List Char) :
    (piece (c :: rest.takeWhile continues)).Plain := by
  unfold run? at h
  split at h
  · cases h
    trivial
  split at h
  · cases h
    trivial
  split at h
  · rename_i hs
    cases h
    intro x hx
    rcases List.mem_cons.mp hx with rfl | hx
    · simp only [isNameStart, isNameChar, Bool.or_eq_true, Char.isAlphanum] at hs ⊢
      exact hs.imp_left .inl
    · exact List.mem_takeWhile_imp hx
  · cases h

theorem mem_prepend {c : Cut} {run q : Placed} {next : Nat}
    (h : q ∈ (c.prepend run next).pieces) : q = run ∨ q ∈ c.pieces := by
  unfold Cut.prepend at h
  split at h
  · split at h
    · exact .inr h
    · exact List.mem_cons.mp h
  · exact List.mem_cons.mp h

theorem plain_of_mem_cut {column : Nat} {cs : List Char} :
    ∀ q ∈ (cut column cs).pieces, q.piece.Plain := by
  fun_induction cut column cs with
  | case1 => simp
  | case2 column c rest hb ih => exact ih
  | case3 => simp
  | case4 column c rest _ _ _ inside following ih =>
    intro q hq
    rcases List.mem_cons.mp hq with rfl | hq
    · trivial
    · exact ih q hq
  | case5 column c rest _ _ m hm following ih =>
    intro q hq
    rcases List.mem_cons.mp hq with rfl | hq
    · trivial
    · exact ih q hq
  | case6 column c rest _ _ _ piece continues hr more next ih =>
    intro q hq
    rcases mem_prepend hq with rfl | hq
    · exact plain_of_run? hr rest
    · exact ih q hq
  | case7 => simp

theorem plain_calledForm {previous : Option Form} {following : List Placed} {form : Form}
    (h : form.Plain) : (calledForm previous following form).Plain := by
  unfold calledForm
  split
  · split
    · split
      · exact h
      · trivial
    · exact h
  · exact h

theorem plain_wordForm {previous : Option Form} {chars : List Char}
    (h : ∀ c ∈ chars, isNameChar c = true) :
    (wordForm previous (String.ofList chars)).Plain := by
  unfold wordForm
  repeat' split
  all_goals first | trivial | skip
  simpa [Form.Plain, AlgoFrontEnd.Plain] using h

theorem plain_of_splitRun {line : Int} {column : Nat} {due : Bool} {cs : List Char}
    {tokens : List Token} (h : splitRun line column due cs = some tokens) :
    ∀ t ∈ tokens, t.form.Plain := by
  fun_induction splitRun line column due cs generalizing tokens with
  | case1 =>
    cases h
    simp
  | case2 column due c rest s hs ih =>
    obtain ⟨ts, hts, rfl⟩ := Option.map_eq_some_iff.mp h
    exact List.forall_mem_cons.mpr ⟨trivial, ih hts⟩
  | case3 column due c rest hs op rest' hc ih =>
    obtain ⟨ts, hts, rfl⟩ := Option.map_eq_some_iff.mp h
    exact List.forall_mem_cons.mpr ⟨trivial, ih hts⟩
  | case4 => cases h

theorem plain_of_numeralForm {chars : List Char} {column : Nat} {form : Form}
    (h : numeralForm chars column = .ok form) : form.Plain := by
  unfold numeralForm at h
  split at h
  · split at h
    · obtain ⟨n, -, rfl⟩ := map_eq_ok.mp h
      trivial
    · obtain ⟨x, -, rfl⟩ := map_eq_ok.mp h
      trivial
    · cases h
  · cases h

/-- The tokens of plain pieces are plain. -/
theorem plain_of_ofPieces {line : Int} {previous : Option Form} {pieces : List Placed}
    {tokens : List Token} (hp : ∀ q ∈ pieces, q.piece.Plain)
    (h : ofPieces line previous pieces = .ok tokens) : ∀ t ∈ tokens, t.form.Plain := by
  fun_induction ofPieces line previous pieces generalizing tokens with
  | case1 =>
    cases h
    simp
  | case2 =>
    rename_i ih
    simp only [bind_eq_ok, pure_eq_ok] at h
    obtain ⟨ts, hts, rfl⟩ := h
    exact List.forall_mem_cons.mpr ⟨trivial, ih (fun q hq => hp q (by simp [hq])) hts⟩
  | case3 =>
    rename_i ih
    simp only [bind_eq_ok, pure_eq_ok] at h
    obtain ⟨ts, hts, rfl⟩ := h
    have hw := hp _ (List.mem_cons_self ..)
    exact List.forall_mem_cons.mpr
      ⟨plain_calledForm (plain_wordForm hw), ih (fun q hq => hp q (by simp [hq])) hts⟩
  | case4 _ _ _ _ _ hr ih =>
    simp only [bind_eq_ok, pure_eq_ok] at h
    obtain ⟨ts, hts, rfl⟩ := h
    exact List.forall_mem_append.mpr
      ⟨plain_of_splitRun hr, ih (fun q hq => hp q (by simp [hq])) hts⟩
  | case5 => cases h
  | case6 _ _ _ _ ih =>
    simp only [bind_eq_ok, pure_eq_ok] at h
    obtain ⟨form, hf, ts, hts, rfl⟩ := h
    exact List.forall_mem_cons.mpr
      ⟨plain_of_numeralForm hf, ih form (fun q hq => hp q (by simp [hq])) hts⟩
  | case7 =>
    rename_i ih
    simp only [bind_eq_ok, pure_eq_ok] at h
    obtain ⟨ts, hts, rfl⟩ := h
    exact List.forall_mem_cons.mpr ⟨trivial, ih (fun q hq => hp q (by simp [hq])) hts⟩
  | case8 _ _ _ _ ih =>
    simp only [bind_eq_ok, pure_eq_ok] at h
    obtain ⟨ts, hts, rfl⟩ := h
    exact List.forall_mem_cons.mpr ⟨trivial, ih (fun q hq => hp q (by simp [hq])) hts⟩

theorem plain_of_ofLine {number : Int} {chars : List Char} {tokens : List Token}
    (h : ofLine number chars = .ok tokens) : ∀ t ∈ tokens, t.form.Plain := by
  simp only [ofLine, bind_eq_ok] at h
  obtain ⟨ts, hts, h⟩ := h
  split at h
  · cases h
  · cases h
    exact List.forall_mem_append.mpr
      ⟨plain_of_ofPieces plain_of_mem_cut hts, List.forall_mem_singleton.mpr trivial⟩

theorem plain_of_ofLinesFrom {number : Int} {lines : List String} {tokens : List Token}
    (h : ofLinesFrom number lines = .ok tokens) : ∀ t ∈ tokens, t.form.Plain := by
  induction lines generalizing number tokens with
  | nil =>
    cases h
    simp
  | cons line lines ih =>
    simp only [ofLinesFrom, bind_eq_ok, mapError_eq_ok, pure_eq_ok] at h
    obtain ⟨first, hf, rest, hr, rfl⟩ := h
    exact List.forall_mem_append.mpr ⟨plain_of_ofLine hf, ih hr⟩

/-- Names in the tokens of a source text are plain. -/
theorem plain_of_ofLines {lines : List String} {tokens : List Token}
    (h : ofLines lines = .ok tokens) : ∀ t ∈ tokens, t.form.Plain :=
  plain_of_ofLinesFrom h

end AlgoFrontEnd.Token
