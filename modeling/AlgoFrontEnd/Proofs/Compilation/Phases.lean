import AlgoFrontEnd.Proofs.Grammar.Equivalence
import AlgoFrontEnd.Proofs.Grammar.Faults
import AlgoFrontEnd.Proofs.Resolution.Checked
import AlgoFrontEnd.Proofs.Resolution.Faults
import AlgoFrontEnd.Proofs.Resolution.Linking

/-! The phases behind the lexer. Main statement: with every partial operation checked, reading ends
in a program or a fault of the parser and resolution in its result or a fault of its own. -/
namespace AlgoFrontEnd

/-- A guarded computation ends as the plain one does. -/
theorem guarded_ends {α : Type} {k : Kind} {x : Except Fault α} (hx : Fails (Fault.isA k) x) :
    (∃ a, guarded x = .ok a ∧ x = .ok a) ∨
      ∃ f, guarded x = .error (.fault f) ∧ x = .error f ∧ f.isA k = true := by
  cases x with
  | ok a => exact .inl ⟨a, rfl, rfl⟩
  | error f => exact .inr ⟨f, rfl, rfl, hx f rfl⟩

/-- Whatever the tokens are, the checked descent ends in the program or in the fault that reading
comes to, the fault one of the parser, and each statement that it reads takes a token. Resolving
that program with checks ends in the result or in the fault, one of resolution, that resolving
comes to. No check fails: neither run halts at a breach. -/
theorem phases_unbreached (tokens : List Token) :
    ((∃ p, Grammar.Descent.program tokens = .ok p ∧ Grammar.program tokens = .ok p) ∨
      ∃ f, Grammar.Descent.program tokens = .error (.fault f) ∧
        Grammar.program tokens = .error f ∧ f.isA .parse = true) ∧
    (∀ last ts s rest, Grammar.Descent.statement last ts = .ok (s, rest) →
      ∃ used, used ≠ [] ∧ ts = used ++ rest) ∧
    ∀ p, Grammar.program tokens = .ok p → ∀ entry,
      (∃ r, Resolution.Checked.program entry p = .ok r ∧ Resolution.program entry p = .ok r) ∨
      ∃ stop, Resolution.Checked.program entry p = .error ⟨.fault stop.fault, stop.log⟩ ∧
        Resolution.program entry p = .error stop ∧ stop.fault.isA .semantic = true := by
  refine ⟨?_, fun last ts s rest h => Grammar.Descent.statement_takes last h, fun p _ entry => ?_⟩
  · rw [Grammar.Descent.program_eq]
    exact guarded_ends (Grammar.fails_program tokens)
  · rw [Resolution.Checked.program_eq]
    have hf := Resolution.fails_program entry p
    cases hr : Resolution.program entry p with
    | ok r => exact .inl ⟨r, rfl, rfl⟩
    | error stop => exact .inr ⟨stop, rfl, rfl, hf stop hr⟩

/-- Calls in calls, signs, brackets, a chain that shares its end, and a call without a result. -/
def guardedSource : List String :=
  ["function f(x: int, y: float) : float", "if x > 0", "return f(x - 1, -(y + f(x, y)))",
    "else if x == 0", "return y", "end", "return 0.5", "end", "function g()", "end",
    "xs <- [1, [f(1, 2.5)], 3]", "g()"]

/-- A call and a bracket that nothing closes, and an operator without its right operand. -/
def unclosedLine : List Token :=
  [⟨.call "f", ⟨1, 1⟩⟩, ⟨.mark .openParen, ⟨1, 2⟩⟩, ⟨.int 1, ⟨1, 3⟩⟩, ⟨.mark .comma, ⟨1, 4⟩⟩,
    ⟨.mark .openParen, ⟨1, 6⟩⟩, ⟨.int 2, ⟨1, 7⟩⟩, ⟨.connective (.operate .add), ⟨1, 9⟩⟩,
    ⟨.endLine, ⟨1, 11⟩⟩]

theorem guardedSource_unbreached :
    (∃ tokens p r, Token.ofLines guardedSource = .ok tokens ∧
      Grammar.Descent.program tokens = .ok p ∧ Resolution.Checked.program "main" p = .ok r) ∧
    Token.ofLines ["f(1, (2 + "] = .ok unclosedLine ∧
      ∃ f, Grammar.Descent.program unclosedLine = .error (.fault f) ∧ f.isA .parse = true := by
  constructor
  · obtain ⟨p, r, ⟨tokens, log, ht, hp, hr⟩, -⟩ :=
      Resolution.resolves_of_any "main" guardedSource (fun _ => true) (by decide +kernel)
    obtain ⟨hread, -, hresolve⟩ := phases_unbreached tokens
    have hread : Grammar.Descent.program tokens = .ok p := by
      obtain ⟨p', hd, hp'⟩ | ⟨f, -, hf, -⟩ := hread
      · cases hp'.symm.trans hp
        exact hd
      · cases hp.symm.trans hf
    obtain ⟨r', hc, -⟩ | ⟨stop, -, hs, -⟩ := hresolve p hp "main"
    · exact ⟨tokens, p, r', ht, hread, hc⟩
    · cases hr.symm.trans hs
  · refine ⟨eq_ok_of_toOption (by decide +kernel), ?_⟩
    have hnone : (Grammar.program unclosedLine).toOption.isNone = true := by decide +kernel
    obtain ⟨p, -, hp⟩ | ⟨f, hd, -, hf⟩ := (phases_unbreached unclosedLine).1
    · rw [hp] at hnone
      cases hnone
    · exact ⟨f, hd, hf⟩

end AlgoFrontEnd
