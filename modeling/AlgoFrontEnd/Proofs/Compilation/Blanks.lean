import AlgoFrontEnd.Proofs.Compilation.Stages
import AlgoFrontEnd.Proofs.Grammar.Blanks
import AlgoFrontEnd.Proofs.Resolution.Relocation
import AlgoFrontEnd.Report

/-! Blank lines. Main statement: sources that differ in them only are read and compiled alike, into
the same program, functions, frames and report, or into a fault of the same class. -/
namespace AlgoFrontEnd

namespace Token

/-! ### Tokens -/

/-- Whether a line has nothing but blank characters. -/
def isBlankLine (line : String) : Bool := line.toList.all Text.isBlank

theorem cuts_of_gap {cs : List Char} (h : Gap cs) (column : Nat) : Cuts column cs [] := by
  induction cs generalizing column with
  | nil => exact .nil column
  | cons c cs ih =>
    obtain ⟨hc, hcs⟩ := List.forall_mem_cons.mp h
    exact .blank hc (ih hcs (column + 1))

theorem ofLine_of_isBlankLine {line : String} (h : isBlankLine line = true) (number : Int) :
    ofLine number (lineText line) = .ok [⟨.endLine, ⟨number, (lineText line).length + 1⟩⟩] := by
  obtain ⟨tail, hline, -⟩ :=
    exists_append_of_dropEndWhile (fun c => c = '\r' || c = '\n') line.toList
  have hgap : Gap (lineText line) := fun c hc =>
    List.all_eq_true.mp h c (hline ▸ List.mem_append_left tail hc)
  exact ofLine_eq_ok_iff.mpr ⟨[], [], cuts_of_gap hgap 1, rfl, rfl⟩

/-- The rejection without the place of its fault. -/
def Rejection.forget : Rejection → Rejection
  | .fault f => .fault (f.move .forget)
  | .limit l => .limit l

/-- A line is read alike under every number. -/
theorem ofLine_forget (n : Nat) (chars : List Char) :
    carry Rejection.forget (List.map (move .forget))
        ((ofLine n chars).mapError (Refusal.atLine n)) =
      carry Rejection.forget (List.map (move .forget))
        ((ofLine 0 chars).mapError (Refusal.atLine 0)) := by
  have hdown := ofLine_down n 0 chars
  rw [Int.zero_add] at hdown
  rw [hdown]
  cases ofLine 0 chars with
  | error r => cases r <;> rfl
  | ok ts =>
    refine congrArg Except.ok ?_
    rw [List.map_map]
    rfl

/-- Lines without the blank ones have the same lines of tokens, or the same fault. -/
theorem written_of_filter (n m : Nat) (lines : List String) :
    carry Rejection.forget Grammar.written (ofLinesFrom n lines) =
      carry Rejection.forget Grammar.written
        (ofLinesFrom m (lines.filter (!isBlankLine ·))) := by
  induction lines generalizing n m with
  | nil => rfl
  | cons line lines ih =>
    by_cases hb : isBlankLine line = true
    · rw [List.filter_cons_of_neg (by simp [hb]), ← ih (n + 1) m, ofLinesFrom,
        ofLine_of_isBlankLine hb, Int.natCast_succ]
      cases ofLinesFrom ((n : Int) + 1) lines with
      | error r => rfl
      | ok us => exact congrArg Except.ok (Grammar.written_append [] _ us)
    · rw [List.filter_cons_of_pos (by simpa using hb), ofLinesFrom, ofLinesFrom]
      refine carry_bind_congr ((ofLine_forget n _).trans (ofLine_forget m _).symm) ?_
      intro first first' hf hf' hfirst
      have hrest := ih (n + 1) (m + 1)
      rw [Int.natCast_succ, Int.natCast_succ] at hrest
      refine carry_bind_congr hrest ?_
      intro us vs _ _ hus
      refine congrArg Except.ok ?_
      obtain ⟨_, body, -, -, rfl⟩ := ofLine_eq_ok_iff.mp (mapError_eq_ok.mp hf)
      obtain ⟨_, body', -, -, rfl⟩ := ofLine_eq_ok_iff.mp (mapError_eq_ok.mp hf')
      have hfirst := congrArg (fun ts => (Grammar.TokenLine.ofTokens ts).filter (!·.isEmpty)) hfirst
      simp only [List.append_assoc, List.singleton_append]
      rw [Grammar.written_append, Grammar.written_append body', hus]
      exact congrArg (· ++ _) hfirst

end Token

/-! ### Failures without their places -/

/-- The class and the message of a failure. -/
def Failure.outline : Failure → Failure
  | .diagnostic d => .diagnostic ⟨d.kind, d.message, none, none, none⟩
  | f => f

def Fault.outline (f : Fault) : Failure :=
  .diagnostic ⟨f.cause.kind, f.cause.message, none, none, none⟩

theorem Fault.outline_move (f : Position → Position) (x : Fault) :
    (x.move f).outline = x.outline := by
  simp [outline, move]

def Token.Rejection.outline : Rejection → Failure
  | .fault f => f.outline
  | .limit l => .limit l

namespace Source
variable {file : String}

/-- Reads lines up to the program that they spell. -/
def parse (file : String) (lines : List String) : Except Failure (Program Position) := do
  let ts ← tokens file lines
  program file lines ts

theorem outline_tokens (lines : List String) :
    carry Failure.outline Grammar.written (tokens file lines) =
      carry Token.Rejection.outline id
        (carry Token.Rejection.forget Grammar.written (Token.ofLines lines)) := by
  unfold tokens
  cases Token.ofLines lines with
  | ok ts => rfl
  | error r =>
    cases r with
    | limit l => rfl
    | fault f => exact congrArg Except.error (f.outline_move .forget).symm

theorem outline_program (lines : List String) (ts : List Token) :
    carry Failure.outline (List.map (Stmt.map Position.forget)) (program file lines ts) =
      carry Fault.outline id (carry (Fault.move .forget) (List.map (Stmt.map Position.forget))
        (Grammar.program ts)) := by
  unfold program
  cases Grammar.program ts with
  | ok p => rfl
  | error f => exact congrArg Except.error (f.outline_move .forget).symm

theorem outline_resolve (entry : String) (lines : List String) (p : Program Position) :
    carry Failure.outline (Resolution.Result.move .forget) (resolve file entry lines p).result =
      carry (Fault.outline ∘ Resolution.Stop.fault) Prod.fst
        (Resolution.program entry (p.map (Stmt.map Position.forget))) := by
  rw [Resolution.program_carry]
  unfold resolve
  cases Resolution.program entry p with
  | ok r => rfl
  | error stop => exact congrArg Except.error (stop.fault.outline_move .forget).symm

end Source

/-! ### Frames and the report -/

section
variable (f : Position → Position)

theorem FrameTable.addAll_move (t : FrameTable) (log : List Event) (rs : List Routine) :
    addAll t log (rs.map (Routine.move f)) = addAll t log rs := by
  induction rs generalizing t log with
  | nil => rfl
  | cons r rs ih =>
    have hframe : Frame.ofRoutine (r.move f) = Frame.ofRoutine r := rfl
    have hsize : (r.move f).frameSize = r.frameSize := rfl
    simp only [List.map_cons, addAll, hframe, hsize, ih]

theorem Report.routineLines_move (frames : FrameTable) (r : Routine) :
    routineLines frames (r.move f) = routineLines frames r := by
  have hlines : statementLines (r.move f).statements = statementLines r.statements := by
    simp only [statementLines, Routine.move, Stmt.mapAll_eq_map, List.flatMap_map, Stmt.text_map]
  unfold routineLines
  rw [hlines]
  rfl

theorem Report.routinesLines_move (frames : FrameTable) (rs : List Routine) :
    routinesLines frames (rs.map (Routine.move f)) = routinesLines frames rs := by
  induction rs with
  | nil => rfl
  | cons r rs ih => rw [List.map_cons, routinesLines, routinesLines, routineLines_move, ih]

end

theorem Source.layOut_alike {file : String} {options : Options} {rs rs' : List Routine}
    (h : rs.map (Routine.move .forget) = rs'.map (Routine.move .forget))
    (lines lines' : List String) :
    carry Failure.outline id (layOut file lines options rs).result =
      carry Failure.outline id (layOut file lines' options rs').result := by
  have hframes : FrameTable.ofRoutines rs = FrameTable.ofRoutines rs' := by
    unfold FrameTable.ofRoutines
    rw [← FrameTable.addAll_move .forget, h, FrameTable.addAll_move]
  unfold layOut
  split
  · rw [hframes]
    cases FrameTable.ofRoutines rs' <;> rfl
  · rfl

/-- A compilation without its tokens and its positions. -/
def Compilation.outline (c : Compilation) : Compilation :=
  ⟨c.file, [], c.program.map (Stmt.map Position.forget), c.routines.map (Routine.move .forget),
    c.externals.map (Symbol.move .forget), c.frames⟩

/-- The report does not show any positions. -/
theorem Compilation.describe_outline (c : Compilation) : c.outline.describe = c.describe := by
  simp only [describe, outline, Report.routinesLines_move, List.map_map]
  rfl

/-! ### Sources -/

section
variable (options : Options) (file : String) {xs ys : List String}

theorem Source.tokens_alike
    (h : xs.filter (!Token.isBlankLine ·) = ys.filter (!Token.isBlankLine ·)) :
    carry Failure.outline Grammar.written (tokens file xs) =
      carry Failure.outline Grammar.written (tokens file ys) := by
  rw [outline_tokens, outline_tokens, Token.ofLines, Token.ofLines]
  have hx := Token.written_of_filter 1 1 xs
  have hy := Token.written_of_filter 1 1 ys
  rw [h] at hx
  exact congrArg _ (hx.trans hy.symm)

theorem Source.program_alike {us vs : List Token} (h : Grammar.written us = Grammar.written vs)
    (lines lines' : List String) :
    carry Failure.outline (List.map (Stmt.map Position.forget)) (program file lines us) =
      carry Failure.outline (List.map (Stmt.map Position.forget)) (program file lines' vs) := by
  rw [outline_program, outline_program, Grammar.program_congr h]

theorem Source.resolve_alike (entry : String) {p q : Program Position}
    (h : p.map (Stmt.map Position.forget) = q.map (Stmt.map Position.forget))
    (lines lines' : List String) :
    carry Failure.outline (Resolution.Result.move .forget) (resolve file entry lines p).result =
      carry Failure.outline (Resolution.Result.move .forget)
        (resolve file entry lines' q).result := by
  rw [outline_resolve, outline_resolve, h]

theorem compileLines_result (lines : List String) :
    (compileLines options file lines).result = (do
      let ts ← Source.tokens file lines
      let p ← Source.program file lines ts
      let r ← (Source.resolve file options.entry lines p).result
      let frames ← (Source.layOut file lines options r.routines).result
      return ⟨file, ts, p, r.routines, r.externals, frames⟩) := by
  simp only [compileLines, Logged.result_andThen, Logged.result_telling]
  rfl

/-- The program without its positions, or the class and the message of the failure. -/
def Source.outlined : Except Failure (Program Position) → Except Failure (Program Position) :=
  carry Failure.outline (List.map (Stmt.map Position.forget))

/-- The compilation without its positions and its report, or the class and the message of the
failure. -/
def Compilation.outlined :
    Except Failure Compilation → Except Failure (Compilation × Except Failure String) :=
  carry Failure.outline fun c => (c.outline, c.describe)

/-- Blank lines are ignored: sources with the same other lines are read alike, up to positions, or
fail with one class of fault and one message, and so are they compiled, with the same report. The
end of the last line may be left out as well. -/
theorem blank_lines_ignored
    (h : xs.filter (!Token.isBlankLine ·) = ys.filter (!Token.isBlankLine ·)) :
    Source.outlined (Source.parse file xs) = Source.outlined (Source.parse file ys) ∧
    Compilation.outlined (compileLines options file xs).result =
      Compilation.outlined (compileLines options file ys).result ∧
    ∀ (lines : List String) (ts : List Token) (stop : Position),
      Source.outlined (Source.program file lines (ts ++ [⟨.endLine, stop⟩])) =
        Source.outlined (Source.program file lines ts) := by
  have htokens := Source.tokens_alike file h
  refine ⟨?_, ?_, ?_⟩
  · exact carry_bind_congr htokens fun us vs _ _ hw => Source.program_alike file hw xs ys
  · rw [compileLines_result, compileLines_result]
    refine carry_bind_congr htokens fun us vs _ _ hw => ?_
    refine carry_bind_congr (Source.program_alike file hw xs ys) fun p q _ _ hp => ?_
    have hresolved := Source.resolve_alike file options.entry hp xs ys
    refine carry_bind_congr hresolved fun r r' _ _ hr => ?_
    have hroutines : r.routines.map (Routine.move .forget) =
        r'.routines.map (Routine.move .forget) := congrArg Resolution.Result.routines hr
    have hexternals : r.externals.map (Symbol.move .forget) =
        r'.externals.map (Symbol.move .forget) := congrArg Resolution.Result.externals hr
    refine carry_bind_congr (Source.layOut_alike hroutines xs ys) fun frames frames' _ _ hf => ?_
    obtain rfl : frames = frames' := hf
    have hc : Compilation.outline ⟨file, us, p, r.routines, r.externals, frames⟩ =
        Compilation.outline ⟨file, vs, q, r'.routines, r'.externals, frames⟩ := by
      simp only [Compilation.outline, hp, hroutines, hexternals]
    refine congrArg Except.ok (Prod.ext hc ?_)
    simp only
    rw [← Compilation.describe_outline, hc, Compilation.describe_outline]
  · intro lines ts stop
    exact Source.program_alike file (Grammar.written_concat ts stop) lines lines

end

/-- A header, a chained conditional, a return without a value and a call, close together. -/
def denseLines : List String :=
  ["declare function g(x: int)", "function f(x: int)", "if x > 0", "g(x)", "else if x == 0",
    "return", "else", "while x < 0", "end", "end", "end", "f(2)"]

/-- The same lines with blank ones around them and between them. -/
def airyLines : List String :=
  ["", " \t", "declare function g(x: int)", "\r\n", "function f(x: int)", "", "if x > 0", "",
    "g(x)", "  ", "else if x == 0", "\n", "return", "", "else", "", "", "while x < 0", " ", "end",
    "", "end", "", "end", "\t", "f(2)", "", ""]

theorem airyLines_ignored :
    (compileLines .default "a" denseLines).result.toOption.isSome = true ∧
    denseLines.filter (!Token.isBlankLine ·) = airyLines.filter (!Token.isBlankLine ·) ∧
    Source.outlined (Source.parse "a" denseLines) = Source.outlined (Source.parse "a" airyLines) ∧
    Compilation.outlined (compileLines .default "a" denseLines).result =
      Compilation.outlined (compileLines .default "a" airyLines).result := by
  have h : denseLines.filter (!Token.isBlankLine ·) = airyLines.filter (!Token.isBlankLine ·) := by
    decide +kernel
  obtain ⟨hparse, hcompile, -⟩ := blank_lines_ignored .default "a" h
  exact ⟨by decide +kernel, h, hparse, hcompile⟩

end AlgoFrontEnd
