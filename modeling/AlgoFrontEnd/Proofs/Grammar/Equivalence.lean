import AlgoFrontEnd.Proofs.Grammar.Descent
import AlgoFrontEnd.Proofs.Grammar.Phrases

/-! Recursive descent against reading line by line. Main statement: both come to the same for all
tokens, so that no check of the descent ever fails. -/
namespace AlgoFrontEnd.Grammar
open Token (Form)

/-- The program that is read when no line is left. -/
def Reading.conclude (r : Reading) : Except Fault (Program Position) :=
  match r.enclosing with
  | [] => return r.body.reverse
  | (block, _) :: _ => fault (.unterminatedBlock block.construct) block.note

/-- What comes of a reading when the tokens that are left are read line by line. -/
def outcome (r : Reading) (ts : List Token) : Except Fault (Program Position) := do
  (← r.lines (TokenLine.ofTokens ts)).conclude

theorem program_eq_outcome (ts : List Token) : program ts = outcome .start ts := rfl

/-! ### One line of the tokens -/

theorem outcome_eq {last : Position} {ts : List Token} (hne : ts ≠ []) (he : EndsAt last ts)
    (r : Reading) :
    outcome r ts =
      r.line (here last (afterLine ts)) (lineOf ts) >>= fun r => outcome r (afterLine ts).tail := by
  rw [outcome, ofTokens_eq hne he, Reading.lines, bind_assoc]
  rfl

/-- The end of an empty line changes nothing. -/
theorem outcome_endLine {t : Token} (h : t.form = .endLine) (r : Reading) (rest : List Token) :
    outcome r (t :: rest) = outcome r rest := by
  obtain ⟨form, p⟩ := t
  obtain rfl : form = .endLine := h
  rfl

theorem outcome_skipBlank (r : Reading) (ts : List Token) :
    outcome r (skipBlank ts) = outcome r ts := by
  induction ts with
  | nil => rfl
  | cons t ts ih =>
    by_cases ht : t.form = .endLine
    · rw [skipBlank, List.dropWhile_cons_of_pos (by simpa using ht), outcome_endLine ht]
      exact ih
    · rw [skipBlank, List.dropWhile_cons_of_neg (by simpa using ht)]

/-- An else only turns to the other branch; its line goes on. -/
theorem outcome_else {r r' : Reading} {t : Token} (h : t.form = .keyword .elseWord)
    (ht : r.turn = some r') (rest : List Token) : outcome r (t :: rest) = outcome r' rest := by
  have hline (stop : Position) (ts : List Token) : r.line stop (t :: ts) = r'.line stop ts := by
    obtain ⟨form, p⟩ := t
    obtain rfl : form = .keyword .elseWord := h
    simp only [Reading.line, ht]
  rw [outcome, outcome, ofTokens_cons (by simp [h])]
  cases TokenLine.ofTokens rest with
  | nil =>
    simp only [Reading.lines, hline]
    rfl
  | cons l ls => simp only [Reading.lines, hline]

/-- An end sees only what the blocks around it become. -/
theorem outcome_congr_end {r r' : Reading} {ts : List Token} (h : atWord .endWord ts = true)
    (hc : Reading.close r.body r.enclosing = Reading.close r'.body r'.enclosing) :
    outcome r ts = outcome r' ts := by
  cases ts with
  | nil => cases h
  | cons t rest =>
    have ht : t.form = .keyword .endWord := by simpa [atWord] using h
    have hline (stop : Position) (ts : List Token) :
        r.line stop (t :: ts) = r'.line stop (t :: ts) := by
      obtain ⟨form, p⟩ := t
      obtain rfl : form = .keyword .endWord := ht
      simp only [Reading.line, hc]
    rw [outcome, outcome, ofTokens_cons (by simp [ht])]
    cases TokenLine.ofTokens rest <;> simp only [Reading.lines, hline]

/-! ### Reading on after a reader -/

namespace Descent

section
variable {α β : Type}

/-- A reader does the reading's work: with what it makes, the reading goes on behind it. -/
def Reads (r : Reading) (ts : List Token) (x : Except Halt (α × List Token)) (k : α → Reading) :
    Prop :=
  guarded (outcome r ts) = x >>= fun p => guarded (outcome (k p.1) p.2)

variable {r : Reading} {ts : List Token} {x : Except Halt (α × List Token)} {k : α → Reading}

theorem Reads.ok {a : α} {rest : List Token} (h : outcome r ts = outcome (k a) rest) :
    Reads r ts (.ok (a, rest)) k := congrArg guarded h

theorem Reads.error {f : Fault} (h : outcome r ts = .error f) : Reads r ts (.error (.fault f)) k :=
  congrArg guarded h

theorem Reads.of_eq {us : List Token} (h : outcome r us = outcome r ts) (hx : Reads r us x k) :
    Reads r ts x k :=
  (congrArg guarded h.symm).trans hx

theorem Reads.bind {f : α × List Token → Except Halt (β × List Token)} {l : β → Reading}
    (hx : Reads r ts x k) (hf : ∀ a rest, x = .ok (a, rest) → Reads (k a) rest (f (a, rest)) l) :
    Reads r ts (x >>= f) l := by
  rw [Reads, bind_assoc, hx]
  exact bind_congr_ok fun ⟨a, rest⟩ hx => hf a rest hx

theorem Reads.ahead {us : List Token} {l : β → Reading}
    {f : α × {rest : List Token // rest.length < us.length} → Except Halt (β × List Token)}
    (hx : Reads r ts x k) (hl : Leaving (·.length < us.length) x)
    (hf : ∀ a rest hl, x = .ok (a, rest) → Reads (k a) rest (f (a, ⟨rest, hl⟩)) l) :
    Reads r ts (Descent.ahead us x >>= f) l := by
  cases hx' : x with
  | error e =>
    rw [hx'] at hx
    exact hx
  | ok p =>
    obtain ⟨a, rest⟩ := p
    have hl := hl a rest hx'
    have hf := hf a rest hl hx'
    rw [hx'] at hx
    have ha : Descent.ahead us (.ok (a, rest)) = .ok (a, ⟨rest, hl⟩) := dif_pos hl
    rw [ha]
    exact hx.trans hf

/-- A reader that takes its whole line as the reading does. -/
theorem Reads.line {last : Position} (us : List Token) (g : Position → List Token → Except Fault α)
    (hx : x = guarded (g (here last (afterLine us)) (lineOf us)) >>= fun a =>
      .ok (a, (afterLine us).tail))
    (hne : ts ≠ []) (he : EndsAt last ts) (hu : afterLine us = afterLine ts)
    (hr : ∀ stop, r.line stop (lineOf ts) = g stop (lineOf us) >>= fun a => .ok (k a)) :
    Reads r ts x k := by
  rw [Reads, outcome_eq hne he, hr, hx, hu, guarded_bind, guarded_bind, bind_assoc, bind_assoc]
  rfl

end

/-! ### Ends and blocks -/

section
variable {last : Position} {r : Reading}

theorem lineEnd_eq_expectEnd (ts : List Token) :
    lineEnd ts =
      guarded (Grammar.expectEnd (lineOf ts)) >>= fun u => .ok (u, (afterLine ts).tail) := by
  calc
    lineEnd ts = lineEnd (lineOf ts ++ afterLine ts) := by rw [lineOf_append_afterLine]
    _ = _ := lineEnd_append lineOf_ne_endLine (endsLine_afterLine ts)

theorem reads_expectEnd {r' : Reading} {ts : List Token} (he : EndsAt last ts)
    (hw : atWord .endWord ts = true) (hc : Reading.close r.body r.enclosing = some r')
    (construct : String) (opener : Position) :
    Reads r ts (expectEnd last construct opener ts) fun _ => r' := by
  cases ts with
  | nil => cases hw
  | cons t rest =>
    have ht : t.form = .keyword .endWord := by simpa [atWord] using hw
    have hx : expectEnd last construct opener (t :: rest) = lineEnd rest := by
      simp only [expectEnd, hw, List.isEmpty_cons, if_true]
      rfl
    have hne : t.form ≠ .endLine := by simp [ht]
    rw [hx]
    refine .line rest (fun _ ts => Grammar.expectEnd ts) (lineEnd_eq_expectEnd rest)
      (List.cons_ne_nil t rest) he (afterLine_cons hne rest).symm fun stop => ?_
    rw [lineOf_cons hne]
    obtain ⟨form, p⟩ := t
    obtain rfl : form = .keyword .endWord := ht
    simp only [Reading.line, hc]
    rfl

/-- The words that end the body of a block. -/
def terminators : Block → List Keyword
  | .thenPart _ _ _ => [.elseWord, .endWord]
  | .function _ _ | .loop _ _ | .elsePart _ _ _ _ => [.endWord]

theorem endWord_mem_terminators (b : Block) : Keyword.endWord ∈ terminators b := by
  cases b <;> simp [terminators]

/-- A statement may start with the token: it ends no body, turns to no other branch, and is no
conditional that belongs to the else before it. -/
structure Starts (r : Reading) (t : Token) : Prop where
  endLine : t.form ≠ .endLine
  ifWord : t.form = .keyword .ifWord → r.startsElse = false
  elseWord : t.form = .keyword .elseWord → r.turn = none
  endWord : t.form = .keyword .endWord → Reading.close r.body r.enclosing = none

/-- In a block, a statement may start with what is no terminator. -/
theorem starts_of_block {b : Block} {before : List (Stmt Position)}
    {outer : List (Block × List (Stmt Position))} {t : Token} {ts : List Token}
    (hr : r.enclosing = (b, before) :: outer) (ht : t ∈ ts.head?) (hn : t.form ≠ .endLine)
    (hw : (terminators b).any (atWord · ts) = false)
    (hl : r.startsElse = true → atWord .ifWord ts = false) : Starts r t := by
  obtain ⟨rest, rfl⟩ := List.head?_eq_some_iff.mp ht
  refine ⟨hn, fun h => ?_, fun h => ?_, fun h => ?_⟩
  · refine Bool.eq_false_iff.mpr fun hs => ?_
    have := hl hs
    simp [atWord, h] at this
  · rw [Reading.turn, hr]
    cases b with
    | thenPart => simp [terminators, atWord, h] at hw
    | _ => rfl
  · have := List.any_eq_false.mp hw _ (endWord_mem_terminators b)
    simp [atWord, h] at this

/-- Outside of all blocks a statement may start with anything. -/
theorem starts_of_nil {t : Token} (hr : r.enclosing = []) (hn : t.form ≠ .endLine) :
    Starts r t where
  endLine := hn
  ifWord _ := by
    unfold Reading.startsElse
    rw [hr]
    cases r.body <;> rfl
  elseWord _ := by rw [Reading.turn, hr]
  endWord _ := by rw [hr, Reading.close]

/-- The blocks around an else come to the same with an empty branch and without. -/
theorem reads_ownEnd {n : Position} {c : Expr Position} {thenBody elseBody : List (Stmt Position)}
    {ts : List Token} (he : EndsAt last ts) (hw : atWord .endWord ts = true) (nested : Bool) :
    Reads ⟨elseBody.reverse, (.elsePart n c thenBody nested, r.body) :: r.enclosing⟩ ts
      (ownEnd last nested n ts) fun _ => r.add (.branch n c thenBody elseBody) := by
  cases nested with
  | true =>
    refine .ok (outcome_congr_end hw ?_)
    simp [Reading.close, Block.isChained, Block.complete, Reading.add]
  | false =>
    refine reads_expectEnd he hw ?_ "if" n
    simp [Reading.close, Block.isChained, Block.complete, Reading.add]

/-! ### Statements and blocks -/

/-- The rest of a line that a keyword begins. -/
theorem Reads.behindWord {α : Type} {g : Position → List Token → Except Fault α}
    {x : Except Halt (α × List Token)} {k : α → Reading} {t : Token} {rest : List Token}
    (hx : x = guarded (g (here last (afterLine rest)) (lineOf rest)) >>= fun a =>
      .ok (a, (afterLine rest).tail))
    (he : EndsAt last (t :: rest)) (hn : t.form ≠ .endLine)
    (hr : ∀ stop ts, r.line stop (t :: ts) = g stop ts >>= fun a => .ok (k a)) :
    Reads r (t :: rest) x k := by
  refine .line rest g hx (List.cons_ne_nil t rest) he (afterLine_cons hn rest).symm fun stop => ?_
  rw [lineOf_cons hn]
  exact hr stop (lineOf rest)

/-- A word that no statement starts with. -/
theorem reads_unexpected {t : Token} {rest : List Token} (he : EndsAt last (t :: rest))
    (hn : t.form ≠ .endLine)
    (hr : ∀ stop ts, r.line stop (t :: ts) = unexpected t "statement")
    (k : Stmt Position → Reading) :
    Reads r (t :: rest) (guarded (unexpected t "statement")) k := by
  refine .error ?_
  rw [outcome_eq (List.cons_ne_nil t rest) he, lineOf_cons hn, hr]
  rfl

theorem skipBlank_ne_endLine {ts : List Token} : ∀ t ∈ (skipBlank ts).head?, t.form ≠ .endLine := by
  intro t ht
  have := List.head?_dropWhile_not (fun t : Token => t.form = .endLine) ts
  rw [show (ts.dropWhile _).head? = some t from ht] at this
  simpa using this

theorem skipBlank_skipBlank (ts : List Token) : skipBlank (skipBlank ts) = skipBlank ts := by
  cases h : skipBlank ts with
  | nil => rfl
  | cons t rest =>
    have := skipBlank_ne_endLine t (by rw [h]; rfl)
    exact List.dropWhile_cons_of_neg (by simpa using this)

theorem Leaving.length_lt {α : Type} {x : Except Halt (α × List Token)} {ts : List Token}
    (h : Leaving (· <:+ ts.tail) x) (hne : ts ≠ []) : Leaving (·.length < ts.length) x := by
  refine h.mono fun rest hr => ?_
  cases ts with
  | nil => exact absurd rfl hne
  | cons t ts => exact Nat.lt_succ_of_le hr.length_le

theorem Leaving.behindWord {α : Type} {x : Except Halt (α × List Token)} {t : Token}
    {rest : List Token} (h : Leaving (· <:+ rest) x) :
    Leaving (·.length < (t :: rest).length) x := by
  have h : Leaving (· <:+ (t :: rest).tail) x := h
  exact h.length_lt (List.cons_ne_nil t rest)

theorem atWord_lineOf (k : Keyword) (ts : List Token) : atWord k (lineOf ts) = atWord k ts := by
  cases ts with
  | nil => rfl
  | cons t ts =>
    by_cases ht : t.form = .endLine
    · rw [lineOf_endLine ht]
      simp [atWord, ht]
    · rw [lineOf_cons ht]
      rfl

theorem here_lineOf (ts : List Token) :
    here (here last (afterLine ts)) (lineOf ts) = here last ts := by
  rw [← here_append, lineOf_append_afterLine]

theorem line_declare_other {ts : List Token} (h : atWord .functionWord ts = false)
    (stop p : Position) :
    r.line stop (⟨.keyword .declareWord, p⟩ :: ts) =
      fault (.missingToken "'function' after 'declare'") (here stop ts) := by
  cases ts with
  | nil => rfl
  | cons t ts =>
    obtain ⟨form, q⟩ := t
    cases form with
    | keyword k => cases k <;> first | rfl | cases h
    | _ => rfl

theorem Reads.advance {α : Type} {ts rest : List Token} {t : Token}
    {f : Token × List Token → Except Halt (α × List Token)} {k : α → Reading}
    (h : Reads r ts (f (t, rest)) k) : Reads r ts (Descent.advance (t :: rest) >>= f) k := h

theorem reads_declare {p : Position} {rest : List Token}
    (he : EndsAt last (⟨.keyword .declareWord, p⟩ :: rest)) :
    Reads r (⟨.keyword .declareWord, p⟩ :: rest)
      (if atWord .functionWord rest then do
        let (_, rest) ← advance rest
        let (h, rest) ← header last rest
        return (.declare p h, rest)
      else Checked.halt (.missingToken "'function' after 'declare'") (here last rest)) r.add := by
  split
  · rename_i hw
    cases rest with
    | nil => cases hw
    | cons t rest =>
      obtain ⟨form, q⟩ := t
      obtain rfl : form = .keyword .functionWord := by simpa [atWord] using hw
      have hh : Reads r (⟨.keyword .declareWord, p⟩ :: ⟨.keyword .functionWord, q⟩ :: rest)
          (header last rest) fun h => r.add (.declare p h) := by
        refine .line rest Grammar.header (header_eq last rest) (List.cons_ne_nil _ _) he ?_ ?_
        · rw [afterLine_cons (by simp), afterLine_cons (by simp)]
        · intro stop
          rw [lineOf_cons (by simp), lineOf_cons (by simp)]
          rfl
      exact .advance (.bind hh fun h rest' _ => .ok rfl)
  · rename_i hw
    refine .error ?_
    rw [outcome_eq (List.cons_ne_nil _ _) he, lineOf_cons (by simp), afterLine_cons (by simp),
      line_declare_other, here_lineOf]
    · rfl
    · rw [atWord_lineOf]
      exact Bool.eq_false_iff.mpr hw

theorem reads_give {p : Position} {rest : List Token}
    (he : EndsAt last (⟨.keyword .returnWord, p⟩ :: rest)) :
    Reads r (⟨.keyword .returnWord, p⟩ :: rest)
      (if (lineOf rest).isEmpty then do
        let (_, rest) ← lineEnd rest
        return (.give p none, rest)
      else do
        let (e, rest) ← expression last rest
        return (.give p (some e), rest)) r.add := by
  split
  · rename_i hn
    have hn := List.isEmpty_iff.mp hn
    refine .bind (k := fun _ => r.add (.give p none)) (.line rest (fun _ ts => Grammar.expectEnd ts)
      (lineEnd_eq_expectEnd rest) (List.cons_ne_nil _ _) he (afterLine_cons (by simp) rest).symm
      fun stop => ?_) fun u rest' _ => .ok rfl
    rw [lineOf_cons (by simp), hn]
    rfl
  · rename_i hn
    obtain ⟨u, us, hu⟩ := List.exists_cons_of_ne_nil fun h => hn (List.isEmpty_iff.mpr h)
    refine .bind (k := fun e => r.add (.give p (some e))) (.line rest Grammar.expression
      (expression_eq last rest) (List.cons_ne_nil _ _) he (afterLine_cons (by simp) rest).symm
      fun stop => ?_) fun e rest' _ => .ok rfl
    rw [lineOf_cons (by simp), hu]
    rfl

/-- An expression on a line of its own. -/
theorem reads_plain {t : Token} {rest : List Token} (he : EndsAt last (t :: rest))
    (hn : t.form ≠ .endLine) (hk : ∀ k, t.form ≠ .keyword k) :
    Reads r (t :: rest) (do
      let (e, rest) ← expression last (t :: rest)
      return (.expr e, rest)) r.add := by
  refine .bind (k := fun e => r.add (.expr e)) (.line (t :: rest) Grammar.expression
    (expression_eq last _) (List.cons_ne_nil t rest) he rfl fun stop => ?_) fun e rest' _ => .ok rfl
  rw [lineOf_cons hn]
  exact line_expression hk r stop (lineOf rest)

/-- A block that is no branch is complete with its own end. -/
theorem reads_ended (b : Block) (hc : b.isChained = false) {ts : List Token} (he : EndsAt last ts)
    (hb : Reads (r.enter b) ts (block last b.construct b.note [.endWord] ts) fun ss =>
      ⟨ss.reverse ++ (r.enter b).body, (r.enter b).enclosing⟩) :
    Reads (r.enter b) ts (do
      let (body, rest) ← block last b.construct b.note [.endWord] ts
      let (_, rest) ← expectEnd last b.construct b.note rest
      return (b.complete body, rest)) r.add := by
  refine .bind hb fun body rest h => ?_
  have hw := leaving_block_terminator _ _ _ _ ts body rest h
  have he := he.suffix (leaving_block _ _ _ _ ts body rest h)
  have hc : Reading.close (body.reverse ++ (r.enter b).body) (r.enter b).enclosing =
      some (r.add (b.complete body)) := by
    simp [Reading.enter, Reading.close, hc, Reading.add]
  exact .bind (reads_expectEnd he (by simpa using hw) hc _ _) fun u rest' _ => .ok rfl

mutual
theorem reads_statement {r : Reading} : {ts : List Token} → EndsAt last ts → ts ≠ [] →
    (∀ t ∈ ts.head?, Starts r t) → Reads r ts (statement last ts) r.add
  | [], _, h, _ => absurd rfl h
  | ⟨form, p⟩ :: rest, he, _, hs => by
    have hs := hs _ rfl
    rw [statement]
    cases form with
    | keyword w =>
      cases w with
      | ifWord => exact reads_conditional false (hs.ifWord rfl) he rfl
      | whileWord =>
        have hl : Leaving (· <:+ rest) (expression last rest) :=
          (leaving_expression last rest).mono fun _ h => h.trans (List.tail_suffix rest)
        refine .ahead (k := fun c => r.enter (.loop p c))
          (.behindWord (expression_eq last rest) he hs.endLine fun _ _ => rfl) hl.behindWord
          fun c rest₁ _ h₁ => ?_
        have he₁ := he.suffix ((hl c rest₁ h₁).trans (List.suffix_cons _ rest))
        exact reads_ended (.loop p c) rfl he₁ (reads_block rfl he₁ nofun)
      | functionWord =>
        have hl := leaving_header last rest
        refine .ahead (k := fun h => r.enter (.function p h))
          (.behindWord (header_eq last rest) he hs.endLine fun _ _ => rfl) hl.behindWord
          fun h rest₁ _ h₁ => ?_
        have he₁ := he.suffix ((hl h rest₁ h₁).trans (List.suffix_cons _ rest))
        exact reads_ended (.function p h) rfl he₁ (reads_block rfl he₁ nofun)
      | declareWord => exact reads_declare he
      | returnWord => exact reads_give he
      | elseWord =>
        refine reads_unexpected he hs.endLine (fun stop ts => ?_) _
        simp only [Reading.line, hs.elseWord rfl]
      | endWord =>
        refine reads_unexpected he hs.endLine (fun stop ts => ?_) _
        simp only [Reading.line, hs.endWord rfl]
      | unknown word => exact reads_unexpected he hs.endLine (fun stop ts => rfl) _
    | endLine => exact absurd rfl hs.endLine
    | _ => exact reads_plain he hs.endLine nofun
termination_by ts => (ts.length, 1)

theorem reads_conditional {r : Reading} (nested : Bool) (hn : r.startsElse = nested) :
    {ts : List Token} → EndsAt last ts → atWord .ifWord ts = true →
    Reads r ts (conditional last nested ts) r.add
  | [], _, h => by cases h
  | t :: rest, he, h => by
    have ht : t.form = .keyword .ifWord := by simpa [atWord] using h
    rw [conditional]
    refine .ahead (k := fun c => r.enter (.thenPart t.position c nested))
      (.behindWord (expression_eq last rest) he (by simp [ht]) fun stop ts => ?_) ?_
      fun c rest₁ _ h₁ => ?_
    · obtain ⟨form, p⟩ := t
      obtain rfl : form = .keyword .ifWord := ht
      rw [← hn]
      rfl
    · refine Leaving.length_lt ?_ (List.cons_ne_nil t rest)
      exact (leaving_expression last rest).mono fun _ h => h.trans (List.tail_suffix rest)
    have h₁ := (leaving_expression last rest c rest₁ h₁).trans (List.tail_suffix rest)
    have he₁ := he.suffix (h₁.trans (List.suffix_cons t rest))
    have hb := reads_block (r := r.enter (.thenPart t.position c nested)) rfl he₁ nofun
    simp only [Reading.enter, List.append_nil] at hb
    refine .ahead hb ?_ fun thenBody rest₂ _ h₂ => ?_
    · refine Leaving.length_lt ?_ (List.cons_ne_nil t rest)
      exact (leaving_block _ _ _ _ rest₁).mono fun _ h => h.trans h₁
    have hw := leaving_block_terminator _ _ _ _ rest₁ thenBody rest₂ h₂
    have h₂ := leaving_block _ _ _ _ rest₁ thenBody rest₂ h₂
    have he₂ := he₁.suffix h₂
    refine .bind (reads_otherwise he₂ hw) fun elseBody rest₃ h₃ => ?_
    have hw := leaving_otherwise_end _ _ rest₂ hw elseBody rest₃ h₃
    have he₃ := he₂.suffix (leaving_otherwise _ _ rest₂ elseBody rest₃ h₃)
    exact .bind (reads_ownEnd he₃ hw nested) fun u rest₄ h₄ => .ok rfl
termination_by ts => (ts.length, 0)

theorem reads_otherwise {n : Position} {c : Expr Position} {thenBody : List (Stmt Position)}
    {chained : Bool} {before : List (Stmt Position)} {outer : List (Block × List (Stmt Position))}
    {ts : List Token} (he : EndsAt last ts)
    (h : (terminators (.thenPart n c chained)).any (atWord · ts) = true) :
    Reads ⟨thenBody.reverse, (.thenPart n c chained, before) :: outer⟩ ts (otherwise last n ts)
      fun elseBody => ⟨elseBody.reverse, (.elsePart n c thenBody chained, before) :: outer⟩ := by
  rw [otherwise]
  split
  · rename_i hw
    have hx : Reads ⟨thenBody.reverse, (.thenPart n c chained, before) :: outer⟩ ts (advance ts)
        fun _ => ⟨[], (.elsePart n c thenBody chained, before) :: outer⟩ := by
      cases ts with
      | nil => cases hw
      | cons t rest =>
        have ht : t.form = .keyword .elseWord := by simpa [atWord] using hw
        refine .ok (outcome_else ht ?_ rest)
        simp [Reading.turn]
    have hne : ts ≠ [] := by
      rintro rfl
      cases hw
    refine .ahead hx ((leaving_advance ts).length_lt hne) fun t rest _ h => ?_
    have he := he.suffix ((leaving_advance ts t rest h).trans (List.tail_suffix ts))
    have he := he.suffix (skipBlank_suffix rest)
    refine .of_eq (outcome_skipBlank _ rest) ?_
    dsimp only
    split
    · exact .bind (reads_conditional true rfl he ‹_›) fun s rest' _ => .ok rfl
    · rename_i hif
      have hb := reads_block (b := .elsePart n c thenBody chained)
        (r := ⟨[], (.elsePart n c thenBody chained, before) :: outer⟩) rfl he fun _ => by
          rw [skipBlank_skipBlank]
          exact Bool.eq_false_iff.mpr hif
      simp only [List.append_nil] at hb
      exact hb
  · have hw : atWord .endWord ts = true := by simp_all [terminators]
    refine .ok (outcome_congr_end hw ?_)
    cases chained <;> simp [Reading.close, Block.complete, Block.isChained]
termination_by (ts.length, 0)
decreasing_by
  all_goals
    have := length_skipBlank rest
    simp only [Prod.lex_def]
    omega

theorem reads_block {r : Reading} {b : Block} {before : List (Stmt Position)}
    {outer : List (Block × List (Stmt Position))} (hr : r.enclosing = (b, before) :: outer)
    {ts : List Token} (he : EndsAt last ts)
    (hl : r.startsElse = true → atWord .ifWord (skipBlank ts) = false) :
    Reads r ts (block last b.construct b.note (terminators b) ts) fun ss =>
      ⟨ss.reverse ++ r.body, r.enclosing⟩ := by
  have he := he.suffix (skipBlank_suffix ts)
  rw [block]
  refine .of_eq (outcome_skipBlank r ts) ?_
  split
  · rename_i hnil
    rw [List.isEmpty_iff.mp hnil]
    refine .error ?_
    simp only [outcome, TokenLine.ofTokens, Reading.lines, bind, Except.bind, Reading.conclude, hr]
    rfl
  split
  · exact .ok rfl
  · rename_i hne hw
    have hne : skipBlank ts ≠ [] := fun h => hne (List.isEmpty_iff.mpr h)
    have hw := Bool.eq_false_iff.mpr hw
    have hst : ∀ t ∈ (skipBlank ts).head?, Starts r t := fun t ht =>
      starts_of_block hr ht (skipBlank_ne_endLine t ht) hw hl
    have hlt := leaving_statement last (skipBlank ts)
    refine .ahead (reads_statement he hne hst) (hlt.length_lt hne) fun s rest _ h => ?_
    have he := he.suffix ((hlt s rest h).trans (List.tail_suffix _))
    refine .bind (reads_block (r := r.add s) hr he nofun) fun ss rest' _ => .ok ?_
    simp [Reading.add]
termination_by (ts.length, 2)
decreasing_by
  all_goals
    have := length_skipBlank ts
    simp only [Prod.lex_def]
    omega
end

/-! ### Programs -/

theorem ahead_eq_ok {α : Type} {ts rest : List Token} {a : α} (h : rest.length < ts.length) :
    ahead ts (.ok (a, rest)) = .ok (a, ⟨rest, h⟩) := dif_pos h

theorem statements_eq (ss : List (Stmt Position)) : {ts : List Token} → EndsAt last ts →
    guarded (outcome ⟨ss, []⟩ ts) = (statements last ts).map (ss.reverse ++ ·)
  | [], _ => by
    rw [statements, Except.map, List.append_nil]
    rfl
  | t :: rest, he => by
    rw [statements]
    split
    · rw [outcome_endLine ‹_›]
      exact statements_eq ss (he.suffix (List.suffix_cons t rest))
    · rename_i hn
      have hl := leaving_statement last (t :: rest)
      have hr : Reads ⟨ss, []⟩ (t :: rest) _ _ :=
        reads_statement he (List.cons_ne_nil t rest) fun u hu => by
          cases hu
          exact starts_of_nil rfl hn
      rw [hr]
      cases hx : statement last (t :: rest) with
      | error e => rfl
      | ok p =>
        obtain ⟨s, rest'⟩ := p
        have hs := hl s rest' hx
        have hlt := hl.length_lt (List.cons_ne_nil t rest) s rest' hx
        have ih := statements_eq (s :: ss) (he.suffix (hs.trans (List.suffix_cons t rest)))
        rw [ahead_eq_ok hlt]
        change guarded (outcome ⟨s :: ss, []⟩ rest') = _
        rw [ih]
        change _ = (statements last rest' >>= _).map _
        cases statements last rest' <;> simp [Except.map, bind, Except.bind, pure, Except.pure]
termination_by ts => ts.length
decreasing_by
  · assumption
  · exact Nat.lt_succ_self _

/-- All checks of the descent hold, and it comes to what reading line by line comes to. -/
theorem program_eq (ts : List Token) : program ts = guarded (Grammar.program ts) := by
  have he : EndsAt ((ts.getLast?.map (·.position)).getD ⟨1, 1⟩) ts := by
    intro t ht
    rw [show ts.getLast? = some t from ht]
    rfl
  have h := statements_eq [] he
  rw [program_eq_outcome]
  refine Eq.trans ?_ h.symm
  rw [program]
  cases statements _ ts <;> rfl

end

end Descent
end AlgoFrontEnd.Grammar
