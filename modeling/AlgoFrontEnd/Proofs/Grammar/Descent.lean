import AlgoFrontEnd.Proofs.Grammar.Checked
import AlgoFrontEnd.Proofs.Grammar.Remaining

/-! Programs read by recursive descent over the tokens that are left, with every partial operation
checked: reading past the last token, looking behind an empty stack, and going on without having
read anything. Main statement: a statement that is read takes at least one token. -/
namespace AlgoFrontEnd.Grammar
open Token (Form)

def skipBlank (ts : List Token) : List Token := ts.dropWhile (·.form = .endLine)

theorem skipBlank_suffix (ts : List Token) : skipBlank ts <:+ ts := List.dropWhile_suffix _

theorem length_skipBlank (ts : List Token) : (skipBlank ts).length ≤ ts.length :=
  (skipBlank_suffix ts).length_le

/-- Whether a keyword comes next. -/
def atWord (k : Keyword) (ts : List Token) : Bool := ts.head?.any (·.form = .keyword k)

namespace Descent
open Checked (halt)

/-- Takes tokens from the front and leaves the others. -/
abbrev Reader (α : Type) := List Token → Except Halt (α × List Token)

def advance : Reader Token
  | [] => breach .pastTokens
  | t :: rest => .ok (t, rest)

/-- The end of the tokens also ends a line. -/
def lineEnd : Reader Unit
  | [] => .ok ((), [])
  | t :: rest =>
    if t.form = .endLine then .ok ((), rest) else guarded (unexpected t "end of line")

/-- Checks that tokens have been taken, so that what is left can be recursed on. -/
def ahead {α : Type} (ts : List Token) (x : Except Halt (α × List Token)) :
    Except Halt (α × {rest : List Token // rest.length < ts.length}) :=
  match x with
  | .error e => .error e
  | .ok (a, rest) =>
    if h : rest.length < ts.length then .ok (a, ⟨rest, h⟩) else breach .noProgress

section
/-! What comes too early at the end of the tokens is told at the last of them. -/
variable (last : Position)

/-- An expression takes its whole line. -/
def expression : Reader (Expr Position) := fun ts => do
  let (_, rest) ← lineEnd (afterLine ts)
  return (← Checked.expression (here last ts) (lineOf ts), rest)

/-- A header takes its whole line. -/
def header : Reader (Header Position)
  | ⟨.name text, _⟩ :: rest => do
    let rest ← guarded (expectMark last .openParen rest)
    let (params, rest) ← guarded (parametersOrNone last rest)
    let rest ← guarded (expectMark last .closeParen rest)
    let (result, rest) ← guarded (resultType? last rest)
    let (_, rest) ← lineEnd rest
    return (⟨text, params, result⟩, rest)
  | tokens => halt (.missingToken "function name") (here last tokens)

/-- The end of a block and of its line. -/
def expectEnd (construct : String) (opener : Position) : Reader Unit := fun ts =>
  if ts.isEmpty then halt (.unterminatedBlock construct) opener
  else if atWord .endWord ts then do
    let (_, rest) ← advance ts
    lineEnd rest
  else halt (.missingToken "'end'") (here last ts)

/-- A nested conditional leaves the end to the outermost one. -/
def ownEnd (nested : Bool) (opener : Position) : Reader Unit := fun ts =>
  if nested then .ok ((), ts) else expectEnd last "if" opener ts

mutual
def statement : Reader (Stmt Position)
  | [] => breach .pastTokens
  | t :: rest =>
    match t.form with
    | .keyword .ifWord => conditional false (t :: rest)
    | .keyword .functionWord => do
      let (h, ⟨rest, _⟩) ← ahead (t :: rest) (header last rest)
      let (body, rest) ← block "function" t.position [.endWord] rest
      let (_, rest) ← expectEnd last "function" t.position rest
      return (.function t.position h body, rest)
    | .keyword .declareWord =>
      if atWord .functionWord rest then do
        let (_, rest) ← advance rest
        let (h, rest) ← header last rest
        return (.declare t.position h, rest)
      else halt (.missingToken "'function' after 'declare'") (here last rest)
    | .keyword .whileWord => do
      let (c, ⟨rest, _⟩) ← ahead (t :: rest) (expression last rest)
      let (body, rest) ← block "while" t.position [.endWord] rest
      let (_, rest) ← expectEnd last "while" t.position rest
      return (.loop t.position c body, rest)
    | .keyword .returnWord =>
      if (lineOf rest).isEmpty then do
        let (_, rest) ← lineEnd rest
        return (.give t.position none, rest)
      else do
        let (e, rest) ← expression last rest
        return (.give t.position (some e), rest)
    | .keyword _ => guarded (unexpected t "statement")
    | _ => do
      let (e, rest) ← expression last (t :: rest)
      return (.expr e, rest)
termination_by ts => (ts.length, 1)

def conditional (nested : Bool) : Reader (Stmt Position)
  | [] => breach .pastTokens
  | t :: rest => do
    let (c, ⟨rest₁, _⟩) ← ahead (t :: rest) (expression last rest)
    let (thenBody, ⟨rest₂, _⟩) ←
      ahead (t :: rest) (block "if" t.position [.elseWord, .endWord] rest₁)
    let (elseBody, rest) ← otherwise t.position rest₂
    let (_, rest) ← ownEnd last nested t.position rest
    return (.branch t.position c thenBody elseBody, rest)
termination_by ts => (ts.length, 0)

def otherwise (opener : Position) (ts : List Token) :
    Except Halt (List (Stmt Position) × List Token) :=
  if atWord .elseWord ts then do
    let (_, ⟨rest, _⟩) ← ahead ts (advance ts)
    if atWord .ifWord (skipBlank rest) then do
      let (s, rest) ← conditional true (skipBlank rest)
      return ([s], rest)
    else block "if" opener [.endWord] (skipBlank rest)
  else .ok ([], ts)
termination_by (ts.length, 0)
decreasing_by
  all_goals
    have := length_skipBlank rest
    simp only [Prod.lex_def]
    omega

/-- Statements up to a terminator, which is left. -/
def block (construct : String) (opener : Position) (terminators : List Keyword)
    (ts : List Token) : Except Halt (List (Stmt Position) × List Token) :=
  if (skipBlank ts).isEmpty then halt (.unterminatedBlock construct) opener
  else if terminators.any (atWord · (skipBlank ts)) then .ok ([], skipBlank ts)
  else do
    let (s, ⟨rest, _⟩) ← ahead (skipBlank ts) (statement (skipBlank ts))
    let (ss, rest) ← block construct opener terminators rest
    return (s :: ss, rest)
termination_by (ts.length, 2)
decreasing_by
  all_goals
    have := length_skipBlank ts
    simp only [Prod.lex_def]
    omega
end

def statements : List Token → Except Halt (List (Stmt Position))
  | [] => .ok []
  | t :: rest =>
    if t.form = .endLine then statements rest
    else do
      let (s, ⟨rest, _⟩) ← ahead (t :: rest) (statement last (t :: rest))
      return s :: (← statements rest)
termination_by ts => ts.length
decreasing_by
  · exact Nat.lt_succ_self _
  · assumption

end

def program (ts : List Token) : Except Halt (Program Position) :=
  statements ((ts.getLast?.map (·.position)).getD ⟨1, 1⟩) ts

/-! ### Whole lines -/

theorem lineEnd_eq {more : List Token} (hm : EndsLine more) :
    lineEnd more = .ok ((), more.tail) := by
  cases more with
  | nil => rfl
  | cons t more => exact if_pos (hm t rfl)

theorem lineEnd_append {ts more : List Token} (hl : ∀ t ∈ ts, t.form ≠ .endLine)
    (hm : EndsLine more) :
    lineEnd (ts ++ more) = guarded (Grammar.expectEnd ts) >>= fun _ => .ok ((), more.tail) := by
  cases ts with
  | nil => exact lineEnd_eq hm
  | cons t ts => exact if_neg (hl t List.mem_cons_self)

theorem expression_eq (last : Position) (ts : List Token) :
    expression last ts =
      guarded (Grammar.expression (here last (afterLine ts)) (lineOf ts)) >>= fun e =>
        .ok (e, (afterLine ts).tail) := by
  have hs : Checked.expression (here last ts) (lineOf ts) =
      guarded (Grammar.expression (here last (afterLine ts)) (lineOf ts)) := by
    rw [Checked.expression_eq]
    cases ts with
    | nil => rfl
    | cons t ts =>
      by_cases ht : t.form = .endLine
      · rw [afterLine_endLine ht]
      · rw [lineOf_cons ht]
        rfl
  rw [expression, lineEnd_eq (endsLine_afterLine ts), hs]
  rfl

theorem header_append {last : Position} {ts more : List Token} (hl : ∀ t ∈ ts, t.form ≠ .endLine)
    (hm : EndsLine more) :
    header last (ts ++ more) =
      guarded (Grammar.header (here last more) ts) >>= fun h => .ok (h, more.tail) := by
  rcases ts with _ | ⟨⟨form, p⟩, ts⟩
  · obtain rfl | ⟨p, more, rfl⟩ := hm.eq_nil_or_cons <;> rfl
  · cases form with
    | name text =>
      rw [List.cons_append, header, header_eq_of_name, expectMark_append hm, guarded_map_bind,
        guarded_bind, bind_assoc]
      refine bind_congr_ok fun r₁ h₁ => ?_
      rw [parametersOrNone_append hm, guarded_map_bind, guarded_bind, bind_assoc]
      refine bind_congr_ok ?_
      rintro ⟨ps, r₂⟩ h₂
      simp only [Prod.map]
      rw [expectMark_append hm, guarded_map_bind, guarded_bind, bind_assoc]
      refine bind_congr_ok fun r₃ h₃ => ?_
      rw [resultType?_append hm, guarded_map_bind, guarded_bind, bind_assoc]
      refine bind_congr_ok ?_
      rintro ⟨result, r₄⟩ h₄
      have hs : r₄ <:+ ts := by
        have h₁ := suffix_of_expectMark (guarded_eq_ok.mp h₁)
        have h₂ := suffix_of_parametersOrNone (guarded_eq_ok.mp h₂)
        have h₃ := suffix_of_expectMark (guarded_eq_ok.mp h₃)
        exact (suffix_of_resultType? (guarded_eq_ok.mp h₄)).trans (h₃.trans (h₂.trans h₁))
      have hl : ∀ t ∈ r₄, t.form ≠ .endLine := fun t ht =>
        hl t (List.mem_cons_of_mem _ (hs.subset ht))
      simp only [Prod.map]
      rw [lineEnd_append hl hm, guarded_bind, bind_assoc, bind_assoc]
      rfl
    | mark m => cases m <;> rfl
    | _ => rfl

theorem header_eq (last : Position) (ts : List Token) :
    header last ts =
      guarded (Grammar.header (here last (afterLine ts)) (lineOf ts)) >>= fun h =>
        .ok (h, (afterLine ts).tail) := by
  rw [← header_append lineOf_ne_endLine (endsLine_afterLine ts), lineOf_append_afterLine]

/-! ### What is left -/

/-- Whatever is left has the property. -/
def Leaving {α : Type} (P : List Token → Prop) (x : Except Halt (α × List Token)) : Prop :=
  ∀ a rest, x = .ok (a, rest) → P rest

namespace Leaving
variable {α β : Type} {P : List Token → Prop} {x : Except Halt (α × List Token)}

theorem ok {a : α} {rest : List Token} (h : P rest) : Leaving P (.ok (a, rest)) := by
  intro b us hu
  cases hu
  exact h

theorem error (e : Halt) : Leaving P (.error e : Except Halt (α × List Token)) := nofun

theorem bind {f : α × List Token → Except Halt (β × List Token)}
    (h : ∀ a rest, x = .ok (a, rest) → Leaving P (f (a, rest))) : Leaving P (x >>= f) := by
  intro b us hu
  obtain ⟨⟨a, rest⟩, hx, hf⟩ := bind_eq_ok.mp hu
  exact h a rest hx b us hf

theorem ahead {ts : List Token}
    {f : α × {rest : List Token // rest.length < ts.length} → Except Halt (β × List Token)}
    (h : ∀ a rest hl, x = .ok (a, rest) → Leaving P (f (a, ⟨rest, hl⟩))) :
    Leaving P (ahead ts x >>= f) := by
  cases hx : x with
  | error e => exact error e
  | ok p =>
    obtain ⟨a, rest⟩ := p
    simp only [Descent.ahead]
    split
    · exact h a rest _ hx
    · exact error _

theorem mono {Q : List Token → Prop} (h : Leaving P x) (hpq : ∀ rest, P rest → Q rest) :
    Leaving Q x := fun a rest hx => hpq rest (h a rest hx)

end Leaving

section
variable (last : Position)

theorem leaving_lineEnd (ts : List Token) : Leaving (· <:+ ts) (lineEnd ts) := by
  cases ts with
  | nil => exact .ok List.suffix_rfl
  | cons t ts =>
    rw [lineEnd]
    split
    · exact .ok (List.suffix_cons t ts)
    · exact .error _

theorem leaving_expression (ts : List Token) : Leaving (· <:+ ts.tail) (expression last ts) := by
  rw [expression_eq]
  intro e rest h
  obtain ⟨e', he, h⟩ := bind_eq_ok.mp h
  cases h
  cases ts with
  | nil => exact List.suffix_rfl
  | cons t ts =>
    by_cases ht : t.form = .endLine
    · exact (afterLine_endLine ht ts).symm ▸ List.suffix_rfl
    · rw [afterLine_cons ht]
      exact (List.tail_suffix _).trans (afterLine_suffix ts)

theorem leaving_header (ts : List Token) : Leaving (· <:+ ts) (header last ts) := by
  rw [header_eq]
  intro h rest hh
  obtain ⟨h', hh', hh⟩ := bind_eq_ok.mp hh
  cases hh
  exact (List.tail_suffix _).trans (afterLine_suffix ts)

theorem leaving_advance (ts : List Token) : Leaving (· <:+ ts.tail) (advance ts) := by
  cases ts with
  | nil => exact .error _
  | cons t ts => exact .ok List.suffix_rfl

theorem leaving_expectEnd (construct : String) (opener : Position) (ts : List Token) :
    Leaving (· <:+ ts) (expectEnd last construct opener ts) := by
  unfold expectEnd
  split
  · exact .error _
  · split
    · refine .bind fun t rest h => ?_
      have hs := (leaving_advance ts t rest h).trans (List.tail_suffix ts)
      exact (leaving_lineEnd rest).mono fun _ hr => hr.trans hs
    · exact .error _

theorem leaving_ownEnd (nested : Bool) (opener : Position) (ts : List Token) :
    Leaving (· <:+ ts) (ownEnd last nested opener ts) := by
  unfold ownEnd
  split
  · exact .ok List.suffix_rfl
  · exact leaving_expectEnd last "if" opener ts

mutual
theorem leaving_statement : (ts : List Token) → Leaving (· <:+ ts.tail) (statement last ts)
  | [] => by
    rw [statement]
    exact .error _
  | t :: rest => by
    rw [statement]
    split
    · exact leaving_conditional false (t :: rest)
    · refine .ahead fun h rest₁ _ h₁ => ?_
      have h₁ := leaving_header last rest h rest₁ h₁
      refine .bind fun body rest₂ h₂ => ?_
      have h₂ := (leaving_block _ _ _ rest₁ body rest₂ h₂).trans h₁
      refine .bind fun u rest₃ h₃ => ?_
      exact .ok ((leaving_expectEnd last _ _ rest₂ u rest₃ h₃).trans h₂)
    · split
      · refine .bind fun u rest₁ h₁ => ?_
        have h₁ := (leaving_advance rest u rest₁ h₁).trans (List.tail_suffix _)
        refine .bind fun h rest₂ h₂ => ?_
        exact .ok ((leaving_header last rest₁ h rest₂ h₂).trans h₁)
      · exact .error _
    · refine .ahead fun c rest₁ _ h₁ => ?_
      have h₁ := (leaving_expression last rest c rest₁ h₁).trans (List.tail_suffix rest)
      refine .bind fun body rest₂ h₂ => ?_
      have h₂ := (leaving_block _ _ _ rest₁ body rest₂ h₂).trans h₁
      refine .bind fun u rest₃ h₃ => ?_
      exact .ok ((leaving_expectEnd last _ _ rest₂ u rest₃ h₃).trans h₂)
    · split
      · refine .bind fun u rest₁ h₁ => ?_
        exact .ok (leaving_lineEnd rest u rest₁ h₁)
      · refine .bind fun e rest₁ h₁ => ?_
        exact .ok ((leaving_expression last rest e rest₁ h₁).trans (List.tail_suffix rest))
    · exact .error _
    · refine .bind fun e rest₁ h₁ => ?_
      exact .ok (leaving_expression last (t :: rest) e rest₁ h₁)
termination_by ts => (ts.length, 1)

theorem leaving_conditional (nested : Bool) :
    (ts : List Token) → Leaving (· <:+ ts.tail) (conditional last nested ts)
  | [] => by
    rw [conditional]
    exact .error _
  | t :: rest => by
    rw [conditional]
    refine .ahead fun c rest₁ _ h₁ => ?_
    have h₁ := (leaving_expression last rest c rest₁ h₁).trans (List.tail_suffix rest)
    refine .ahead fun thenBody rest₂ _ h₂ => ?_
    have h₂ := (leaving_block _ _ _ rest₁ thenBody rest₂ h₂).trans h₁
    refine .bind fun elseBody rest₃ h₃ => ?_
    have h₃ := (leaving_otherwise _ rest₂ elseBody rest₃ h₃).trans h₂
    refine .bind fun u rest₄ h₄ => ?_
    exact .ok ((leaving_ownEnd last nested _ rest₃ u rest₄ h₄).trans h₃)
termination_by ts => (ts.length, 0)

theorem leaving_otherwise (opener : Position) (ts : List Token) :
    Leaving (· <:+ ts) (otherwise last opener ts) := by
  rw [otherwise]
  split
  · refine .ahead fun t rest _ h => ?_
    have h := (leaving_advance ts t rest h).trans (List.tail_suffix ts)
    have hs := (skipBlank_suffix rest).trans h
    dsimp only
    split
    · refine .bind fun s rest' hr => ?_
      have hr := leaving_conditional true (skipBlank rest) s rest' hr
      exact .ok ((hr.trans (List.tail_suffix _)).trans hs)
    · exact (leaving_block _ _ _ (skipBlank rest)).mono fun _ hr => hr.trans hs
  · exact .ok List.suffix_rfl
termination_by (ts.length, 0)
decreasing_by
  all_goals
    have := length_skipBlank rest
    simp only [Prod.lex_def]
    omega

theorem leaving_block (construct : String) (opener : Position) (terminators : List Keyword)
    (ts : List Token) : Leaving (· <:+ ts) (block last construct opener terminators ts) := by
  rw [block]
  have hs := skipBlank_suffix ts
  split
  · exact .error _
  split
  · exact .ok hs
  · refine .ahead fun s rest _ h => ?_
    have h := (leaving_statement (skipBlank ts) s rest h).trans (List.tail_suffix _)
    refine .bind fun ss rest' hr => ?_
    have hr := leaving_block construct opener terminators rest ss rest' hr
    exact .ok ((hr.trans h).trans hs)
termination_by (ts.length, 2)
decreasing_by
  all_goals
    have := length_skipBlank ts
    simp only [Prod.lex_def]
    omega
end

/-- A statement takes at least one token. -/
theorem statement_takes {ts rest : List Token} {s : Stmt Position}
    (h : statement last ts = .ok (s, rest)) : ∃ used, used ≠ [] ∧ ts = used ++ rest := by
  cases ts with
  | nil =>
    rw [statement] at h
    cases h
  | cons t ts =>
    obtain ⟨used, hu⟩ := leaving_statement last (t :: ts) s rest h
    exact ⟨t :: used, List.cons_ne_nil t used, congrArg (t :: ·) hu.symm⟩

/-- A block stops before one of its terminators. -/
theorem leaving_block_terminator (construct : String) (opener : Position)
    (terminators : List Keyword) (ts : List Token) :
    Leaving (fun rest => terminators.any (atWord · rest))
      (block last construct opener terminators ts) := by
  rw [block]
  split
  · exact .error _
  split
  · exact .ok ‹_›
  · refine .ahead fun s rest _ h => ?_
    refine .bind fun ss rest' hr => ?_
    exact .ok (leaving_block_terminator construct opener terminators rest ss rest' hr)
termination_by ts.length
decreasing_by
  have := length_skipBlank ts
  omega

mutual
/-- A nested conditional stops before the end that it shares. -/
theorem leaving_nested_end : (ts : List Token) →
    Leaving (fun rest => atWord .endWord rest) (conditional last true ts)
  | [] => by
    rw [conditional]
    exact .error _
  | t :: rest => by
    rw [conditional]
    refine .ahead fun c rest₁ _ h₁ => ?_
    refine .ahead fun thenBody rest₂ _ h₂ => ?_
    have h₂ := leaving_block_terminator _ _ _ _ rest₁ thenBody rest₂ h₂
    refine .bind fun elseBody rest₃ h₃ => ?_
    exact .ok (leaving_otherwise_end _ rest₂ h₂ elseBody rest₃ h₃)
termination_by ts => ts.length
decreasing_by
  assumption

theorem leaving_otherwise_end (opener : Position) (ts : List Token)
    (h : [Keyword.elseWord, .endWord].any (atWord · ts)) :
    Leaving (fun rest => atWord .endWord rest) (otherwise last opener ts) := by
  rw [otherwise]
  split
  · refine .ahead fun t rest _ _ => ?_
    dsimp only
    split
    · refine .bind fun s rest' hr => ?_
      exact .ok (leaving_nested_end (skipBlank rest) s rest' hr)
    · refine (leaving_block_terminator _ _ _ _ (skipBlank rest)).mono fun rest hr => ?_
      simpa using hr
  · refine .ok ?_
    simp_all
termination_by ts.length
decreasing_by
  have := length_skipBlank rest
  omega
end

end

end Descent
end AlgoFrontEnd.Grammar
