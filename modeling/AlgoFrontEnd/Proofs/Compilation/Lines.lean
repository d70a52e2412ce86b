import AlgoFrontEnd.Proofs.Compilation.Stages
import AlgoFrontEnd.Proofs.Grammar.Lines
import AlgoFrontEnd.Proofs.Token.Spans

/-! Sources in a row. Main statement: lines behind other lines have the tokens, the faults and the
statements that they have alone, only further down. -/
namespace AlgoFrontEnd

/-- The same failure on a place further down. -/
def Failure.down (k : Nat) : Failure → Failure
  | .diagnostic d =>
    .diagnostic { d with location := d.location.map fun l => ⟨l.file, l.position.down k⟩ }
  | f => f

theorem lineAt?_append_left {xs ys : List String} {number : Int} (h : number ≤ xs.length) :
    lineAt? (xs ++ ys) number = lineAt? xs number := by
  unfold lineAt?
  split
  · rw [List.getElem?_append_left]
    omega
  · rfl

theorem lineAt?_append_right (xs ys : List String) {number : Int} (h : 0 < number) :
    lineAt? (xs ++ ys) (number + xs.length) = lineAt? ys number := by
  unfold lineAt?
  rw [if_pos (by omega), if_pos h, List.getElem?_append_right (by omega)]
  congr 1
  omega

/-- A fault is told alike whatever stands behind the lines. -/
theorem diagnostic_append_left (file : String) {xs ys : List String} {f : Fault} {p : Position}
    (hp : f.position = some p) (h : p.line ≤ xs.length) :
    f.diagnostic file (xs ++ ys) = f.diagnostic file xs := by
  simp only [Fault.diagnostic, hp, Option.bind_some, lineAt?_append_left h]

/-- A fault is told alike behind other lines, only for a place further down. -/
theorem diagnostic_append_right (file : String) {xs ys : List String} {f : Fault} {p : Position}
    (hp : f.position = some p) (h : 0 < p.line) :
    Failure.diagnostic
        (Fault.diagnostic file (xs ++ ys) ⟨f.cause, f.position.map (·.down xs.length)⟩) =
      (Failure.diagnostic (f.diagnostic file ys)).down xs.length := by
  have hline := lineAt?_append_right xs ys h
  simp only [Fault.diagnostic, hp, Option.map_some, Option.bind_some, Position.down, hline]
  rfl

/-- The tokens of lines behind others are those that they have alone, only further down. -/
theorem Source.tokens_append (file : String) (xs ys : List String) :
    Source.tokens file (xs ++ ys) = (do
      let first ← Source.tokens file xs
      let second ← (Source.tokens file ys).mapError (Failure.down xs.length)
      return first ++ second.map (Token.move (·.down xs.length))) := by
  unfold Source.tokens Token.ofLines
  rw [Token.ofLinesFrom_append, Token.ofLinesFrom_down]
  let texts (lines : List String) := lines.map fun l => String.ofList (Token.lineText l)
  have htexts : texts (xs ++ ys) = texts xs ++ texts ys := List.map_append
  have hlen : (texts xs).length = xs.length := List.length_map _
  cases hx : Token.ofLinesFrom 1 xs with
  | error r =>
    cases r with
    | limit l => rfl
    | fault f =>
      obtain ⟨p, hp, -, hlt⟩ := Token.line_of_ofLinesFrom hx
      show Except.error (Failure.diagnostic (f.diagnostic file (texts (xs ++ ys)))) =
        Except.error (Failure.diagnostic (f.diagnostic file (texts xs)))
      rw [htexts, diagnostic_append_left file hp (by omega)]
  | ok ts =>
    cases hy : Token.ofLinesFrom 1 ys with
    | error r =>
      cases r with
      | limit l => rfl
      | fault f =>
        obtain ⟨p, hp, hle, -⟩ := Token.line_of_ofLinesFrom hy
        show Except.error (Failure.diagnostic (Fault.diagnostic file (texts (xs ++ ys))
            ⟨f.cause, f.position.map (·.down xs.length)⟩)) =
          Except.error ((Failure.diagnostic (f.diagnostic file (texts ys))).down xs.length)
        rw [htexts, ← hlen, diagnostic_append_right file hp (by omega)]
    | ok us => rfl

/-- What follows the tokens of whole lines starts a line. -/
theorem ofTokens_of_ofLinesFrom {number : Int} {lines : List String} {ts : List Token}
    (h : Token.ofLinesFrom number lines = .ok ts) (us : List Token) :
    Grammar.TokenLine.ofTokens (ts ++ us) =
      Grammar.TokenLine.ofTokens ts ++ Grammar.TokenLine.ofTokens us := by
  induction lines generalizing number ts with
  | nil =>
    cases h
    rfl
  | cons line lines ih =>
    simp only [Token.ofLinesFrom, bind_eq_ok, mapError_eq_ok, pure_eq_ok] at h
    obtain ⟨first, hfirst, more, hmore, rfl⟩ := h
    obtain ⟨-, body, -, -, rfl⟩ := Token.ofLine_eq_ok_iff.mp hfirst
    simp only [List.append_assoc, List.cons_append, List.nil_append]
    rw [Grammar.ofTokens_append, Grammar.ofTokens_append body _ more, ih hmore, List.append_assoc]

/-- No line reaches into another: lines behind accepted lines have the tokens or the fault that
they have alone, only further down, and if both parts spell programs, the whole spells the
statements of the first followed by those of the second. -/
theorem lines_independent (file : String) (xs ys : List String) :
    (Source.tokens file (xs ++ ys) = (do
      let first ← Source.tokens file xs
      let second ← (Source.tokens file ys).mapError (Failure.down xs.length)
      return first ++ second.map (Token.move (·.down xs.length)))) ∧
    ∀ ts us p q, Source.tokens file xs = .ok ts → Source.tokens file ys = .ok us →
      Grammar.program ts = .ok p → Grammar.program us = .ok q →
      Grammar.program (ts ++ us.map (Token.move (·.down xs.length))) =
        .ok (p ++ q.map (Stmt.map (·.down xs.length))) := by
  refine ⟨Source.tokens_append file xs ys, ?_⟩
  intro ts us p q ht _ hp hq
  have hts := ofTokens_of_ofLinesFrom (Source.tokens_ok ht)
  exact Grammar.program_append _ hts hp hq

/-- Lines that end in a name, and lines that begin with a parenthesis and with a sign. -/
def upperLines : List String := ["function f(x: int)", "end", "f <- 2", "f"]

def lowerLines : List String := ["(1)", "-2"]

theorem upperLines_independent : ∃ ts us p q,
    Source.tokens "a" upperLines = .ok ts ∧ Source.tokens "a" lowerLines = .ok us ∧
    Grammar.program ts = .ok p ∧ Grammar.program us = .ok q ∧
    Source.tokens "a" (upperLines ++ lowerLines) = .ok (ts ++ us.map (Token.move (·.down 4))) ∧
    Grammar.program (ts ++ us.map (Token.move (·.down 4))) =
      .ok (p ++ q.map (Stmt.map (·.down 4))) := by
  have accepted (lines : List String)
      (h : ((Source.tokens "a" lines).toOption.bind fun ts =>
        (Grammar.program ts).toOption).isSome = true) :
      ∃ ts p, Source.tokens "a" lines = .ok ts ∧ Grammar.program ts = .ok p := by
    obtain ⟨p, h⟩ := Option.isSome_iff_exists.mp h
    obtain ⟨ts, ht, hp⟩ := Option.bind_eq_some_iff.mp h
    exact ⟨ts, p, eq_ok_of_toOption ht, eq_ok_of_toOption hp⟩
  obtain ⟨ts, p, ht, hp⟩ := accepted upperLines (by decide +kernel)
  obtain ⟨us, q, hu, hq⟩ := accepted lowerLines (by decide +kernel)
  obtain ⟨htokens, hprogram⟩ := lines_independent "a" upperLines lowerLines
  refine ⟨ts, us, p, q, ht, hu, hp, hq, ?_, hprogram ts us p q ht hu hp hq⟩
  rw [htokens, ht, hu]
  rfl

end AlgoFrontEnd
