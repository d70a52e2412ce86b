import AlgoFrontEnd.Proofs.Grammar.Lines

/-! Lines without tokens. Main statement: token streams whose other lines are spelled alike are read
alike, wherever their tokens stand. -/
namespace AlgoFrontEnd

/-- One position in the place of all others, where positions do not matter. -/
def Position.forget (_ : Position) : Position := ⟨0, 0⟩

namespace Grammar
open Token (Form)

def TokenLine.isEmpty (l : TokenLine) : Bool := l.tokens.isEmpty

/-- The lines of a token stream that have tokens, whatever their positions. -/
def written (ts : List Token) : List TokenLine :=
  (TokenLine.ofTokens (ts.map (Token.move .forget))).filter (!·.isEmpty)

theorem Reading.lines_filter (r : Reading) (ls : List TokenLine) :
    r.lines (ls.filter (!·.isEmpty)) = r.lines ls := by
  induction ls generalizing r with
  | nil => rfl
  | cons l ls ih =>
    obtain ⟨tokens, stop⟩ := l
    cases tokens with
    | nil => exact ih r
    | cons t tokens => exact congrArg (_ >>= ·) (funext ih)

/-- What a stream spells depends on the lines that have tokens only. -/
theorem program_congr {us vs : List Token} (h : written us = written vs) :
    carry (Fault.move .forget) (List.map (Stmt.map Position.forget)) (program us) =
      carry (Fault.move .forget) (List.map (Stmt.map Position.forget)) (program vs) := by
  rw [← program_map, ← program_map, program, program, ← Reading.lines_filter,
    ← Reading.lines_filter _ (TokenLine.ofTokens (vs.map _))]
  exact congrArg (fun ls => Reading.start.lines ls >>= _) h

theorem written_append (body : List Token) (stop : Position) (us : List Token) :
    written (body ++ ⟨.endLine, stop⟩ :: us) =
      written (body ++ [⟨.endLine, stop⟩]) ++ written us := by
  simp only [written, List.map_append, List.map_cons, List.map_nil, Token.move]
  rw [ofTokens_append, List.filter_append]

/-- The end of the last line completes that line or makes an empty one. -/
theorem ofTokens_concat {stop : Position} {ts : List Token} (h : ∀ t ∈ ts, t.position = stop) :
    TokenLine.ofTokens (ts ++ [⟨.endLine, stop⟩]) = TokenLine.ofTokens ts ∨
      TokenLine.ofTokens (ts ++ [⟨.endLine, stop⟩]) = TokenLine.ofTokens ts ++ [⟨[], stop⟩] := by
  induction ts with
  | nil => exact .inr rfl
  | cons t ts ih =>
    obtain ⟨ht, hts⟩ := List.forall_mem_cons.mp h
    by_cases he : t.form = .endLine
    · obtain ⟨form, p⟩ := t
      obtain rfl : form = .endLine := he
      exact (ih hts).imp (congrArg (TokenLine.mk [] p :: ·)) (congrArg (TokenLine.mk [] p :: ·))
    · rw [List.cons_append, ofTokens_cons he, ofTokens_cons he]
      rcases ih hts with ih | ih
      · rw [ih]
        exact .inl rfl
      · rw [ih]
        cases TokenLine.ofTokens ts with
        | nil => exact .inl (by rw [ht]; rfl)
        | cons line lines => exact .inr rfl

theorem written_concat (ts : List Token) (stop : Position) :
    written (ts ++ [⟨.endLine, stop⟩]) = written ts := by
  have hts : ∀ t ∈ ts.map (Token.move .forget), t.position = stop.forget :=
    List.forall_mem_map.mpr fun _ _ => rfl
  simp only [written, List.map_append, List.map_cons, List.map_nil, Token.move]
  rcases ofTokens_concat hts with h | h
  · rw [h]
  · rw [h, List.filter_append]
    exact List.append_nil _

end Grammar
end AlgoFrontEnd
