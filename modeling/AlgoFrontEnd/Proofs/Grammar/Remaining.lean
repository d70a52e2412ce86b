import AlgoFrontEnd.Proofs.Grammar.Lines

/-! Lines at the front of the tokens that are left. Main statements: such a line is the next line
of the token stream, and the parts of a header are read from it as they are read from the line by
itself. -/
namespace AlgoFrontEnd.Grammar
open Token (Form)

/-- The tokens before the next end of a line. -/
def lineOf (ts : List Token) : List Token := ts.takeWhile (·.form ≠ .endLine)

/-- The tokens from the next end of a line on. -/
def afterLine (ts : List Token) : List Token := ts.dropWhile (·.form ≠ .endLine)

theorem lineOf_append_afterLine (ts : List Token) : lineOf ts ++ afterLine ts = ts :=
  List.takeWhile_append_dropWhile

theorem lineOf_ne_endLine {ts : List Token} : ∀ t ∈ lineOf ts, t.form ≠ .endLine := by
  intro t ht
  simpa using List.mem_takeWhile_imp ht

/-- Nothing, or the end of a line and what follows it. -/
def EndsLine (ts : List Token) : Prop := ∀ t ∈ ts.head?, t.form = .endLine

theorem EndsLine.eq_nil_or_cons {ts : List Token} (h : EndsLine ts) :
    ts = [] ∨ ∃ p rest, ts = ⟨.endLine, p⟩ :: rest := by
  rcases ts with _ | ⟨⟨form, p⟩, rest⟩
  · exact .inl rfl
  · obtain rfl : form = .endLine := h _ rfl
    exact .inr ⟨p, rest, rfl⟩

theorem endsLine_afterLine (ts : List Token) : EndsLine (afterLine ts) := by
  intro t ht
  have := List.head?_dropWhile_not (fun t : Token => t.form ≠ .endLine) ts
  rw [show (ts.dropWhile _).head? = some t from ht] at this
  simpa using this

theorem lineOf_cons {t : Token} (h : t.form ≠ .endLine) (ts : List Token) :
    lineOf (t :: ts) = t :: lineOf ts :=
  List.takeWhile_cons_of_pos (decide_eq_true h)

theorem afterLine_cons {t : Token} (h : t.form ≠ .endLine) (ts : List Token) :
    afterLine (t :: ts) = afterLine ts :=
  List.dropWhile_cons_of_pos (decide_eq_true h)

theorem lineOf_endLine {t : Token} (h : t.form = .endLine) (ts : List Token) :
    lineOf (t :: ts) = [] :=
  List.takeWhile_cons_of_neg (by simp [h])

theorem afterLine_endLine {t : Token} (h : t.form = .endLine) (ts : List Token) :
    afterLine (t :: ts) = t :: ts :=
  List.dropWhile_cons_of_neg (by simp [h])

theorem afterLine_suffix (ts : List Token) : afterLine ts <:+ ts := List.dropWhile_suffix _

/-- The position at which a stream that ends too early is told: that of its last token. -/
def EndsAt (last : Position) (ts : List Token) : Prop := ∀ t ∈ ts.getLast?, t.position = last

theorem EndsAt.suffix {last : Position} {ts rest : List Token} (h : EndsAt last ts)
    (hs : rest <:+ ts) : EndsAt last rest := by
  obtain ⟨used, rfl⟩ := hs
  intro t ht
  refine h t ?_
  rw [List.getLast?_append, show rest.getLast? = some t from ht]
  rfl

/-- The next line is what stands before the next end of a line, and the stream goes on behind. -/
theorem ofTokens_eq {last : Position} {ts : List Token} (hne : ts ≠ []) (h : EndsAt last ts) :
    TokenLine.ofTokens ts =
      ⟨lineOf ts, here last (afterLine ts)⟩ :: TokenLine.ofTokens (afterLine ts).tail := by
  induction ts with
  | nil => exact absurd rfl hne
  | cons t ts ih =>
    by_cases ht : t.form = .endLine
    · obtain ⟨form, p⟩ := t
      obtain rfl : form = .endLine := ht
      rw [lineOf_endLine rfl, afterLine_endLine rfl]
      rfl
    · rw [ofTokens_cons ht, lineOf_cons ht, afterLine_cons ht]
      cases ts with
      | nil =>
        rw [h t rfl]
        rfl
      | cons u ts => rw [ih (List.cons_ne_nil u ts) (h.suffix (List.suffix_cons t _))]

/-! ### Parts of a header with more tokens behind its line -/

section
variable {last : Position} {more : List Token}

theorem here_append (ts : List Token) : here last (ts ++ more) = here (here last more) ts := by
  cases ts <;> rfl

theorem expectMark_append (hm : EndsLine more) (m : Mark) (ts : List Token) :
    expectMark last m (ts ++ more) = (expectMark (here last more) m ts).map (· ++ more) := by
  cases ts with
  | nil => obtain rfl | ⟨p, more, rfl⟩ := hm.eq_nil_or_cons <;> rfl
  | cons t ts =>
    simp only [List.cons_append, expectMark]
    split <;> rfl

theorem resultType?_append (hm : EndsLine more) (ts : List Token) :
    resultType? last (ts ++ more) =
      (resultType? (here last more) ts).map (Prod.map id (· ++ more)) := by
  rcases ts with _ | ⟨⟨form, p⟩, ts⟩
  · obtain rfl | ⟨p, more, rfl⟩ := hm.eq_nil_or_cons <;> rfl
  · by_cases hc : form = .mark .colon
    · subst hc
      rcases ts with _ | ⟨⟨form, q⟩, ts⟩
      · obtain rfl | ⟨q, more, rfl⟩ := hm.eq_nil_or_cons <;> rfl
      · cases form <;> rfl
    · cases form with
      | mark m => cases m <;> first | exact absurd rfl hc | rfl
      | _ => rfl

theorem suffix_of_expectMark {stop : Position} {m : Mark} {ts rest : List Token}
    (h : expectMark stop m ts = .ok rest) : rest <:+ ts := by
  cases ts with
  | nil => exact absurd h fault_ne_ok
  | cons t ts =>
    simp only [expectMark] at h
    split at h
    · cases h
      exact List.suffix_cons t _
    · exact absurd h fault_ne_ok

theorem suffix_of_resultType? {stop : Position} {a : Option TypeRef} {ts rest : List Token}
    (h : resultType? stop ts = .ok (a, rest)) : rest <:+ ts := by
  unfold resultType? at h
  split at h
  · split at h
    · cases h
      exact ⟨[_, _], rfl⟩
    · cases h
      exact ⟨[_, _], rfl⟩
    · exact absurd h fault_ne_ok
  · cases h
    exact List.suffix_rfl

theorem suffix_of_parameters {stop : Position} {ts rest : List Token}
    {ps : List (Parameter Position)} (h : parameters stop ts = .ok (ps, rest)) : rest <:+ ts := by
  fun_induction parameters stop ts generalizing ps rest with
  | case1 => cases h
  | case2 text p after type comma after' ht ih =>
    obtain ⟨⟨more, after''⟩, hm, h⟩ := bind_eq_ok.mp h
    cases h
    have := (ih hm).trans ((List.suffix_cons _ _).trans (suffix_of_resultType? ht))
    exact this.trans (List.suffix_cons _ _)
  | case3 text p after type after' hcomma ht =>
    cases h
    exact (suffix_of_resultType? ht).trans (List.suffix_cons _ _)
  | case4 => exact absurd h fault_ne_ok

theorem parameters_error {stop p : Position} {text : String} {ts : List Token} {e : Fault}
    (h : resultType? stop ts = .error e) :
    parameters stop (⟨.name text, p⟩ :: ts) = .error e := by
  rw [parameters]
  split <;> simp_all

theorem parameters_append (hm : EndsLine more) (ts : List Token) :
    parameters last (ts ++ more) =
      (parameters (here last more) ts).map (Prod.map id (· ++ more)) := by
  fun_induction parameters (here last more) ts with
  | case1 text p after e he =>
    rw [List.cons_append]
    refine parameters_error ?_
    rw [resultType?_append hm, he]
    rfl
  | case2 text p after type comma after' ht ih =>
    have ht : resultType? last (after ++ more) =
        .ok (type, ⟨.mark .comma, comma⟩ :: (after' ++ more)) := by
      rw [resultType?_append hm, ht]
      rfl
    rw [List.cons_append, parameters_comma ht, ih]
    cases parameters (here last more) after' <;> rfl
  | case3 text p after type after' hcomma ht =>
    rw [List.cons_append]
    refine parameters_last (by rw [resultType?_append hm, ht]; rfl) ?_
    intro t ht' hform
    cases after' with
    | nil =>
      have := hm t ht'
      rw [hform] at this
      cases this
    | cons u after' =>
      obtain rfl : u = t := by simpa using ht'
      obtain ⟨form, q⟩ := u
      obtain rfl : form = .mark .comma := hform
      exact hcomma q after' rfl
  | case4 ts hts =>
    cases ts with
    | nil =>
      rw [List.nil_append, parameters.eq_def]
      obtain rfl | ⟨p, more, rfl⟩ := hm.eq_nil_or_cons <;> rfl
    | cons t ts =>
      obtain ⟨form, p⟩ := t
      rw [List.cons_append, parameters.eq_def]
      cases form with
      | name text => exact absurd rfl (hts text p ts)
      | _ => rfl

theorem parametersOrNone_append (hm : EndsLine more) (ts : List Token) :
    parametersOrNone last (ts ++ more) =
      (parametersOrNone (here last more) ts).map (Prod.map id (· ++ more)) := by
  have hp : parameters last (ts ++ more) = _ := parameters_append hm ts
  cases ts with
  | nil => obtain rfl | ⟨p, more, rfl⟩ := hm.eq_nil_or_cons <;> exact hp
  | cons t ts =>
    obtain ⟨form, p⟩ := t
    cases form with
    | mark m => cases m <;> first | rfl | exact hp
    | _ => exact hp

theorem suffix_of_parametersOrNone {stop : Position} {ts rest : List Token}
    {ps : List (Parameter Position)} (h : parametersOrNone stop ts = .ok (ps, rest)) :
    rest <:+ ts := by
  unfold parametersOrNone at h
  split at h
  · cases h
    exact List.suffix_rfl
  · exact suffix_of_parameters h

end
end AlgoFrontEnd.Grammar
