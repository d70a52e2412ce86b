import AlgoFrontEnd.Grammar.Program
import AlgoFrontEnd.Proofs.Grammar.Relocation

/-! Programs at other positions and in a row. Main statements: where tokens stand changes nothing
but positions; what is accepted alone is accepted behind accepted lines, and its statements follow
theirs. -/
namespace AlgoFrontEnd.Grammar
open Token (Form)

/-! ### Lines of tokens -/

section
variable (f : Position → Position)

def TokenLine.map (l : TokenLine) : TokenLine := ⟨l.tokens.map (Token.move f), f l.stop⟩

theorem ofTokens_cons {t : Token} {ts : List Token} (h : t.form ≠ .endLine) :
    TokenLine.ofTokens (t :: ts) = match TokenLine.ofTokens ts with
      | [] => [⟨[t], t.position⟩]
      | line :: lines => ⟨t :: line.tokens, line.stop⟩ :: lines := by
  obtain ⟨form, p⟩ := t
  cases form with
  | endLine => exact absurd rfl h
  | _ => rfl

theorem ofTokens_map (ts : List Token) :
    TokenLine.ofTokens (ts.map (Token.move f)) =
      (TokenLine.ofTokens ts).map (TokenLine.map f) := by
  induction ts with
  | nil => rfl
  | cons t ts ih =>
    obtain ⟨form, p⟩ := t
    by_cases he : form = .endLine
    · subst he
      exact congrArg (⟨[], f p⟩ :: ·) ih
    · have he' : (Token.move f ⟨form, p⟩).form ≠ .endLine := he
      rw [List.map_cons, ofTokens_cons he', ofTokens_cons (t := ⟨form, p⟩) he, ih]
      cases TokenLine.ofTokens ts <;> rfl

theorem ofTokens_ne_nil {ts : List Token} (h : ts ≠ []) : TokenLine.ofTokens ts ≠ [] := by
  fun_cases TokenLine.ofTokens ts with
  | case1 => exact absurd rfl h
  | _ => exact List.cons_ne_nil _ _

/-- What follows an end of a line starts a line. -/
theorem ofTokens_append (ts : List Token) (stop : Position) (us : List Token) :
    TokenLine.ofTokens (ts ++ ⟨.endLine, stop⟩ :: us) =
      TokenLine.ofTokens (ts ++ [⟨.endLine, stop⟩]) ++ TokenLine.ofTokens us := by
  induction ts with
  | nil => rfl
  | cons t ts ih =>
    obtain ⟨form, p⟩ := t
    by_cases he : form = .endLine
    · subst he
      exact congrArg (⟨[], p⟩ :: ·) ih
    · rw [List.cons_append, List.cons_append, ofTokens_cons (t := ⟨form, p⟩) he,
        ofTokens_cons (t := ⟨form, p⟩) he, ih]
      cases h : TokenLine.ofTokens (ts ++ [⟨.endLine, stop⟩]) with
      | nil => exact absurd h (ofTokens_ne_nil (by simp))
      | cons line lines => rfl

/-! ### Statements behind others -/

def Block.map : Block → Block
  | .function p header => .function (f p) (header.map f)
  | .loop p condition => .loop (f p) (condition.map f)
  | .thenPart p condition chained => .thenPart (f p) (condition.map f) chained
  | .elsePart p condition thenBody chained =>
    .elsePart (f p) (condition.map f) (thenBody.map (Stmt.map f)) chained

variable (base : List (Stmt Position))

/-- A reading at other positions and behind statements read before it. -/
def Reading.behind (body : List (Stmt Position)) : List (Block × List (Stmt Position)) → Reading
  | [] => ⟨body.map (Stmt.map f) ++ base, []⟩
  | (b, before) :: outer =>
    let r := behind before outer
    ⟨body.map (Stmt.map f), (b.map f, r.body) :: r.enclosing⟩

variable {f base}

theorem Block.complete_map (b : Block) (body : List (Stmt Position)) :
    (b.complete body).map f = (b.map f).complete (body.map (Stmt.map f)) := by
  cases b <;> simp [Block.complete, Stmt.map, Block.map, Stmt.mapAll_eq_map]

theorem Block.isChained_map (b : Block) : (b.map f).isChained = b.isChained := by
  cases b <;> rfl

namespace Reading

theorem behind_add (s : Stmt Position) (body : List (Stmt Position))
    (enclosing : List (Block × List (Stmt Position))) :
    behind f base (s :: body) enclosing = (behind f base body enclosing).add (s.map f) := by
  cases enclosing <;> rfl

theorem startsElse_behind (r : Reading) :
    (behind f base r.body r.enclosing).startsElse = r.startsElse := by
  obtain ⟨body, enclosing⟩ := r
  match enclosing with
  | [] =>
    have {ss : List (Stmt Position)} : startsElse ⟨ss, []⟩ = false := by cases ss <;> rfl
    exact this.trans this.symm
  | (b, before) :: outer => cases body <;> cases b <;> rfl

theorem close_behind (body : List (Stmt Position))
    (enclosing : List (Block × List (Stmt Position))) :
    close (behind f base body enclosing).body (behind f base body enclosing).enclosing =
      (close body enclosing).map fun r => behind f base r.body r.enclosing := by
  induction enclosing generalizing body with
  | nil => rfl
  | cons b outer ih =>
    obtain ⟨block, before⟩ := b
    have hbody : (block.map f).complete (body.map (Stmt.map f)).reverse =
        (block.complete body.reverse).map f := by
      rw [Block.complete_map, List.map_reverse]
    simp only [behind, close, Block.isChained_map, hbody]
    split
    · have := ih (block.complete body.reverse :: before)
      rw [behind_add] at this
      exact this
    · rw [Option.map_some, behind_add]
      rfl

theorem turn_behind (r : Reading) :
    (behind f base r.body r.enclosing).turn =
      r.turn.map fun r => behind f base r.body r.enclosing := by
  obtain ⟨body, enclosing⟩ := r
  match enclosing with
  | [] => rfl
  | (b, before) :: outer => cases b <;> simp [behind, turn, Block.map]

/-- A line means the same, or has the same fault, at other positions and behind other statements. -/
theorem line_behind (stop : Position) (r : Reading) (ts : List Token) :
    (behind f base r.body r.enclosing).line (f stop) (ts.map (Token.move f)) =
      carry (Fault.move f) (fun r => behind f base r.body r.enclosing) (r.line stop ts) := by
  induction ts generalizing r with
  | nil => rfl
  | cons t rest ih =>
    obtain ⟨form, p⟩ := t
    cases form with
    | keyword k =>
      cases k with
      | ifWord =>
        refine bind_carry (expression_map f stop rest) fun e _ => ?_
        rw [startsElse_behind]
        rfl
      | whileWord => exact bind_carry (expression_map f stop rest) fun e _ => rfl
      | functionWord => exact bind_carry (header_map f stop rest) fun e _ => rfl
      | declareWord =>
        rcases rest with _ | ⟨⟨form, q⟩, rest⟩
        · rfl
        · cases form with
          | keyword k =>
            cases k with
            | functionWord =>
              refine bind_carry (header_map f stop rest) fun h _ => ?_
              exact congrArg Except.ok (behind_add (.declare p h) r.body r.enclosing).symm
            | _ => rfl
          | _ => rfl
      | returnWord =>
        cases rest with
        | nil => exact congrArg Except.ok (behind_add (.give p none) r.body r.enclosing).symm
        | cons u rest =>
          refine bind_carry (expression_map f stop (u :: rest)) fun e _ => ?_
          exact congrArg Except.ok (behind_add (.give p (some e)) r.body r.enclosing).symm
      | elseWord =>
        simp only [List.map_cons, Token.move, line, turn_behind]
        cases r.turn with
        | none => rfl
        | some r => exact ih r
      | endWord =>
        simp only [List.map_cons, Token.move, line, close_behind]
        cases close r.body r.enclosing with
        | none => rfl
        | some r => exact bind_carry (expectEnd_map f rest) fun _ _ => rfl
      | unknown word => rfl
    | _ =>
      refine bind_carry (expression_map f stop (_ :: rest)) fun e _ => ?_
      exact congrArg Except.ok (behind_add (.expr e) r.body r.enclosing).symm

theorem lines_behind (r : Reading) (ls : List TokenLine) :
    (behind f base r.body r.enclosing).lines (ls.map (TokenLine.map f)) =
      carry (Fault.move f) (fun r => behind f base r.body r.enclosing) (r.lines ls) := by
  induction ls generalizing r with
  | nil => rfl
  | cons l ls ih => exact bind_carry (line_behind l.stop r l.tokens) fun r _ => ih r

theorem lines_append (r : Reading) (ls ms : List TokenLine) :
    r.lines (ls ++ ms) = r.lines ls >>= fun r => r.lines ms := by
  induction ls generalizing r with
  | nil => rfl
  | cons l ls ih =>
    rw [List.cons_append, lines, lines, bind_assoc]
    congr
    funext r
    exact ih r

end Reading

end

/-- Tokens at other positions spell the same program, or have the same fault. -/
theorem program_map (f : Position → Position) (ts : List Token) :
    program (ts.map (Token.move f)) =
      carry (Fault.move f) (List.map (Stmt.map f)) (program ts) := by
  rw [program, program, ofTokens_map]
  have hread : Reading.start.lines ((TokenLine.ofTokens ts).map (TokenLine.map f)) =
      carry (Fault.move f) (fun r => Reading.behind f [] r.body r.enclosing)
        (Reading.start.lines (TokenLine.ofTokens ts)) := Reading.lines_behind .start _
  refine bind_carry hread fun ⟨body, enclosing⟩ _ => ?_
  match enclosing with
  | [] => simp [Reading.behind, carry, pure, Except.pure]
  | (b, before) :: outer => cases b <;> rfl

theorem reading_of_program {ts : List Token} {p : Program Position} (h : program ts = .ok p) :
    Reading.start.lines (TokenLine.ofTokens ts) = .ok ⟨p.reverse, []⟩ := by
  obtain ⟨⟨body, enclosing⟩, hr, h⟩ := bind_eq_ok.mp h
  cases enclosing with
  | nil =>
    cases h
    rw [List.reverse_reverse]
    exact hr
  | cons b outer => exact absurd h fault_ne_ok

/-- Accepted tokens behind accepted lines are accepted wherever they stand, and mean the same. -/
theorem program_append {ts us : List Token} {p q : Program Position} (f : Position → Position)
    (hts : ∀ us, TokenLine.ofTokens (ts ++ us) = TokenLine.ofTokens ts ++ TokenLine.ofTokens us)
    (hp : program ts = .ok p) (hq : program us = .ok q) :
    program (ts ++ us.map (Token.move f)) = .ok (p ++ q.map (Stmt.map f)) := by
  have hq : (Reading.behind f p.reverse [] []).lines
      ((TokenLine.ofTokens us).map (TokenLine.map f)) =
        .ok (Reading.behind f p.reverse q.reverse []) :=
    (Reading.lines_behind .start _).trans (carry_eq_ok.mpr ⟨_, reading_of_program hq, rfl⟩)
  have hr : Reading.start.lines (TokenLine.ofTokens (ts ++ us.map (Token.move f))) =
      .ok (Reading.behind f p.reverse q.reverse []) := by
    rw [hts, ofTokens_map, Reading.lines_append, reading_of_program hp]
    exact hq
  refine bind_eq_ok.mpr ⟨_, hr, ?_⟩
  simp [Reading.behind, pure, Except.pure]

end AlgoFrontEnd.Grammar
