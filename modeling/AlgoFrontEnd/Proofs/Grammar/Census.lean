import AlgoFrontEnd.Proofs.Grammar.Blocks
import AlgoFrontEnd.Proofs.Grammar.Conservation
import AlgoFrontEnd.Tree.Preorder

/-! What the tokens of a program say, against what its tree says. Main statement: no token is lost
and none is told twice. -/
namespace AlgoFrontEnd
open Token (Form)

/-- Whether a token must come back from the tree. Marks and ends of lines are layout, and an else
may stand before nothing. -/
def Token.Form.isKept : Form → Bool
  | .mark _ | .endLine | .keyword .elseWord => false
  | _ => true

section
variable {α : Type}

/-- The end of a conditional, which one that begins the else part brings along. -/
def branchEnd (elseBody : List (Stmt α)) : Multiset Form :=
  if opensBranch elseBody then 0 else {.keyword .endWord}

theorem branchEnd_shared {elseBody : List (Stmt α)} (h : opensBranch elseBody = true) :
    branchEnd elseBody = 0 :=
  if_pos h

theorem branchEnd_own {elseBody : List (Stmt α)} (h : opensBranch elseBody = false) :
    branchEnd elseBody = {.keyword .endWord} := by
  simp [branchEnd, h]

mutual
/-- What a statement says: its words, headers and expressions. -/
def Stmt.forms : Stmt α → Multiset Form
  | .function _ head body =>
    .keyword .functionWord ::ₘ .keyword .endWord ::ₘ (head.forms + Stmt.formsAll body)
  | .declare _ head => .keyword .declareWord ::ₘ .keyword .functionWord ::ₘ head.forms
  | .branch _ c thenBody elseBody =>
    .keyword .ifWord ::ₘ
      (branchEnd elseBody + (c.forms + Stmt.formsAll thenBody + Stmt.formsAll elseBody))
  | .loop _ c body =>
    .keyword .whileWord ::ₘ .keyword .endWord ::ₘ (c.forms + Stmt.formsAll body)
  | .give _ (some e) => .keyword .returnWord ::ₘ e.forms
  | .give _ none => {.keyword .returnWord}
  | .expr e => e.forms

def Stmt.formsAll : List (Stmt α) → Multiset Form
  | [] => 0
  | s :: ss => s.forms + Stmt.formsAll ss
end

theorem Stmt.formsAll_reverse (ss : List (Stmt α)) :
    Stmt.formsAll ss.reverse = Stmt.formsAll ss := by
  have happend (xs ys : List (Stmt α)) :
      Stmt.formsAll (xs ++ ys) = Stmt.formsAll xs + Stmt.formsAll ys := by
    induction xs with
    | nil => simp [Stmt.formsAll]
    | cons s ss ih => rw [List.cons_append, Stmt.formsAll, Stmt.formsAll, ih, add_assoc]
  induction ss with
  | nil => rfl
  | cons s ss ih =>
    rw [List.reverse_cons, happend, ih]
    simp only [Stmt.formsAll, add_zero]
    exact add_comm _ _

mutual
/-- How many conditionals, at any depth, begin the else part of another one. -/
def Stmt.sharedEnds : Stmt α → Nat
  | .function _ _ body | .loop _ _ body => Stmt.sharedEndsAll body
  | .branch _ _ thenBody elseBody =>
    Stmt.sharedEndsAll thenBody + Stmt.sharedEndsAll elseBody +
      if opensBranch elseBody then 1 else 0
  | .declare _ _ | .give _ _ | .expr _ => 0

def Stmt.sharedEndsAll : List (Stmt α) → Nat
  | [] => 0
  | s :: ss => s.sharedEnds + Stmt.sharedEndsAll ss
end

/-- Nodes that need an end, not regarding chains. -/
def NodeKind.isBlock : NodeKind → Bool
  | .function | .loop | .branch => true
  | _ => false

mutual
theorem Expr.countP_kinds : (e : Expr α) → e.kinds.countP NodeKind.isBlock = 0
  | .int _ _ | .float _ _ | .bool _ _ | .string _ _ => rfl
  | .array _ elements => Expr.countP_kindsAll elements
  | .place p => by cases p <;> rfl
  | .call _ _ arguments => Expr.countP_kindsAll arguments
  | .binary _ _ left right => by
    rw [Expr.kinds, List.cons_append, List.countP_cons_of_neg (by decide),
      List.countP_append, left.countP_kinds, right.countP_kinds]
  | .sign _ _ operand => operand.countP_kinds
  | .assign _ target value => by
    rw [Expr.kinds, List.countP_cons_of_neg (by decide),
      List.countP_cons_of_neg (by cases target <;> exact Bool.false_ne_true), value.countP_kinds]

theorem Expr.countP_kindsAll : (es : List (Expr α)) →
    (Expr.kindsAll es).countP NodeKind.isBlock = 0
  | [] => rfl
  | e :: es => by
    rw [Expr.kindsAll, List.countP_append, e.countP_kinds, Expr.countP_kindsAll es]
end

theorem Header.countP_kinds (h : Header α) : h.kinds.countP NodeKind.isBlock = 0 := by
  rw [Header.kinds, List.countP_map]
  exact List.countP_eq_zero.mpr fun _ _ => nofun

theorem count_content {fs : Multiset Form} (h : ∀ f ∈ fs, f.isContent = true) :
    fs.count (.keyword .endWord) = 0 :=
  Multiset.count_eq_zero.mpr fun hmem => nomatch h _ hmem

theorem count_branchEnd (elseBody : List (Stmt α)) :
    (branchEnd elseBody).count (.keyword .endWord) +
      (if opensBranch elseBody then 1 else 0) = 1 := by
  unfold branchEnd
  split
  · rfl
  · simp

mutual
/-- Every block has an end, of its own or shared. -/
theorem Stmt.count_ends : (s : Stmt α) →
    s.forms.count (.keyword .endWord) + s.sharedEnds = s.kinds.countP NodeKind.isBlock
  | .function _ head body => by
    have := Stmt.count_endsAll body
    simp only [Stmt.forms, Multiset.count_cons, Multiset.count_add, count_content head.content,
      Stmt.sharedEnds, Stmt.kinds, List.cons_append, List.countP_cons, List.countP_append,
      head.countP_kinds, NodeKind.isBlock, Form.keyword.injEq, reduceCtorEq,
      if_true, if_false]
    omega
  | .declare _ head => by
    simp only [Stmt.forms, Multiset.count_cons, count_content head.content, Stmt.sharedEnds,
      Stmt.kinds, List.countP_cons, head.countP_kinds, NodeKind.isBlock, Form.keyword.injEq,
      reduceCtorEq, if_false]
  | .branch _ c thenBody elseBody => by
    have hthen := Stmt.count_endsAll thenBody
    have helse := Stmt.count_endsAll elseBody
    have hend := count_branchEnd elseBody
    simp only [Stmt.forms, Multiset.count_cons, Multiset.count_add, count_content c.content,
      Stmt.sharedEnds, Stmt.kinds, List.cons_append, List.countP_cons, List.countP_append,
      c.countP_kinds, NodeKind.isBlock, Form.keyword.injEq, reduceCtorEq,
      if_true, if_false]
    omega
  | .loop _ c body => by
    have := Stmt.count_endsAll body
    simp only [Stmt.forms, Multiset.count_cons, Multiset.count_add, count_content c.content,
      Stmt.sharedEnds, Stmt.kinds, List.cons_append, List.countP_cons, List.countP_append,
      c.countP_kinds, NodeKind.isBlock, Form.keyword.injEq, reduceCtorEq,
      if_true, if_false]
    omega
  | .give _ (some e) => by
    simp only [Stmt.forms, Multiset.count_cons, count_content e.content, Stmt.sharedEnds,
      Stmt.kinds, List.countP_cons, e.countP_kinds, NodeKind.isBlock, Form.keyword.injEq,
      reduceCtorEq, if_false]
  | .give _ none => rfl
  | .expr e => by
    rw [Stmt.forms, count_content e.content, Stmt.kinds, e.countP_kinds]
    rfl

theorem Stmt.count_endsAll : (ss : List (Stmt α)) →
    (Stmt.formsAll ss).count (.keyword .endWord) + Stmt.sharedEndsAll ss =
      (Stmt.kindsAll ss).countP NodeKind.isBlock
  | [] => rfl
  | s :: ss => by
    rw [Stmt.formsAll, Multiset.count_add, Stmt.sharedEndsAll, Stmt.kindsAll, List.countP_append,
      ← s.count_ends, ← Stmt.count_endsAll ss]
    omega
end

end

namespace Grammar

def kept (ts : List Token) : Multiset Form := ((ts.map (·.form)).filter (·.isKept) : List Form)

@[simp] theorem kept_nil : kept [] = 0 := rfl

theorem kept_cons (t : Token) (ts : List Token) :
    kept (t :: ts) = (if t.form.isKept then {t.form} else 0) + kept ts := by
  simp only [kept, List.map_cons, List.filter_cons]
  split <;> simp_all

theorem kept_of_said {ts : List Token} (h : ∀ f ∈ said ts, f.isContent = true) :
    kept ts = said ts := by
  unfold kept said at *
  congr 1
  apply List.filter_congr
  intro f hf
  cases hm : f.isMark with
  | true => cases f <;> simp_all [Form.isMark, Form.isKept]
  | false =>
    have := h f (Multiset.mem_coe.mpr (List.mem_filter.mpr ⟨hf, by simp [hm]⟩))
    cases f <;> simp_all [Form.isContent, Form.isKept]

theorem kept_expression {stop : Position} {ts : List Token} {e : Expr Position}
    (h : expression stop ts = .ok e) : kept ts = e.forms := by
  rw [kept_of_said (said_expression h ▸ e.content), said_expression h]

theorem kept_header {stop : Position} {ts : List Token} {head : Header Position}
    (h : header stop ts = .ok head) : kept ts = head.forms := by
  rw [kept_of_said (said_header h ▸ head.content), said_header h]

/-- What open blocks have said. -/
def Block.forms : Block → Multiset Form
  | .function _ head => .keyword .functionWord ::ₘ head.forms
  | .loop _ c => .keyword .whileWord ::ₘ c.forms
  | .thenPart _ c _ => .keyword .ifWord ::ₘ c.forms
  | .elsePart _ c thenBody _ => .keyword .ifWord ::ₘ (c.forms + Stmt.formsAll thenBody)

def enclosingForms : List (Block × List (Stmt Position)) → Multiset Form
  | [] => 0
  | (b, before) :: outer => b.forms + Stmt.formsAll before + enclosingForms outer

def Reading.forms (r : Reading) : Multiset Form :=
  Stmt.formsAll r.body + enclosingForms r.enclosing

theorem forms_add (r : Reading) (s : Stmt Position) : (r.add s).forms = s.forms + r.forms := by
  simp only [Reading.add, Reading.forms, Stmt.formsAll, add_assoc]

theorem forms_enter (r : Reading) (b : Block) : (r.enter b).forms = b.forms + r.forms := by
  simp only [Reading.enter, Reading.forms, Stmt.formsAll, enclosingForms, zero_add, add_assoc]

theorem forms_turn {r r' : Reading} (h : r.turn = some r') : r'.forms = r.forms := by
  obtain ⟨body, enclosing⟩ := r
  unfold Reading.turn at h
  split at h
  · rename_i he
    cases h
    simp only at he
    subst he
    simp only [Reading.forms, enclosingForms, Block.forms, Stmt.formsAll, Stmt.formsAll_reverse,
      ← Multiset.singleton_add]
    abel
  · cases h

/-- The end of a chain is told by the conditional that closes it. -/
theorem forms_chain {before : List (Stmt Position)} {outer : List (Block × List (Stmt Position))}
    (h : Held before outer) {s : Stmt Position} (hs : s.isBranch = true) {r : Reading}
    (hc : (if Reading.startsElse ⟨before, outer⟩ then Reading.close (s :: before) outer
      else some ⟨s :: before, outer⟩) = some r) :
    r.forms = s.forms + Reading.forms ⟨before, outer⟩ := by
  induction outer generalizing before s with
  | nil =>
    split at hc
    · cases hc
    · cases hc
      exact forms_add ⟨before, []⟩ s
  | cons b outer ih =>
    split at hc
    · rename_i hstarts
      obtain ⟨rfl, p, c, thenBody, chained, before, outer, he⟩ := startsElse_eq_true hstarts
      cases he
      cases h with
      | elsePart _ _ _ _ _ ho =>
        rw [ih ho (s := .branch p c thenBody [s]) rfl hc]
        have hshared : branchEnd [s] = 0 := branchEnd_shared hs
        simp only [Reading.forms, enclosingForms, Block.forms, Stmt.forms, Stmt.formsAll,
          hshared, ← Multiset.singleton_add]
        abel
    · cases hc
      exact forms_add ⟨before, b :: outer⟩ s

theorem forms_close_block {body : List (Stmt Position)}
    {enclosing : List (Block × List (Stmt Position))} (h : Held body enclosing) {r : Reading}
    (hc : Reading.close body enclosing = some r) :
    r.forms = {.keyword .endWord} + Reading.forms ⟨body, enclosing⟩ := by
  cases h with
  | outside hs => cases hc
  | function p head hs ho =>
    cases hc
    simp only [Reading.forms, enclosingForms, Block.forms, Block.complete, Stmt.forms,
      Stmt.formsAll, Stmt.formsAll_reverse, ← Multiset.singleton_add]
    abel
  | loop p c hs ho =>
    cases hc
    simp only [Reading.forms, enclosingForms, Block.forms, Block.complete, Stmt.forms,
      Stmt.formsAll, Stmt.formsAll_reverse, ← Multiset.singleton_add]
    abel
  | thenPart p c hs ho =>
    rw [forms_chain ho (s := .branch p c body.reverse []) rfl hc]
    have hown : branchEnd ([] : List (Stmt Position)) = {.keyword .endWord} := branchEnd_own rfl
    simp only [Reading.forms, enclosingForms, Block.forms, Stmt.forms, Stmt.formsAll,
      Stmt.formsAll_reverse, hown, ← Multiset.singleton_add]
    abel
  | @elsePart _ _ _ p c thenBody ht hs hb ho =>
    rw [forms_chain ho (s := .branch p c thenBody body.reverse) rfl hc]
    simp only [Reading.forms, enclosingForms, Block.forms, Stmt.forms, Stmt.formsAll_reverse,
      branchEnd_own hb, ← Multiset.singleton_add]
    abel

/-- A line adds what it says. -/
theorem forms_step {stop : Position} {r r' : Reading} {ts : List Token}
    (hr : Held r.body r.enclosing) (h : r.Step stop ts r') : r'.forms = kept ts + r.forms := by
  induction h with
  | blank => exact (zero_add _).symm
  | branch h | loop h =>
    rw [forms_enter, kept_cons, kept_expression h]
    rfl
  | function h =>
    rw [forms_enter, kept_cons, kept_header h]
    rfl
  | declare h =>
    rw [forms_add, kept_cons, kept_cons, kept_header h]
    rfl
  | give => exact forms_add _ _
  | giveValue h =>
    rw [forms_add, kept_cons, kept_expression h]
    rfl
  | otherwise ht _ ih => rw [ih (hr.turn ht), forms_turn ht, kept_cons]; simp [Form.isKept]
  | close hc => exact forms_close_block hr hc
  | expr _ h => rw [forms_add, kept_expression h, Stmt.forms]

theorem forms_lines {r r' : Reading} {ls : List TokenLine} (hr : Held r.body r.enclosing)
    (h : r.lines ls = .ok r') : r'.forms = (ls.map fun l => kept l.tokens).sum + r.forms := by
  induction ls generalizing r with
  | nil =>
    cases h
    exact (zero_add _).symm
  | cons l ls ih =>
    obtain ⟨r₁, hl, h⟩ := bind_eq_ok.mp h
    have hs := step_of_line hl
    rw [ih (hr.step hs) h, forms_step hr hs, List.map_cons, List.sum_cons]
    abel

theorem kept_ofTokens (ts : List Token) :
    ((TokenLine.ofTokens ts).map fun l => kept l.tokens).sum = kept ts := by
  induction ts with
  | nil => rfl
  | cons t ts ih =>
    obtain ⟨form, p⟩ := t
    by_cases he : form = .endLine
    · subst he
      rw [kept_cons, ← ih]
      rfl
    · rw [ofTokens_cons (t := ⟨form, p⟩) he, kept_cons, ← ih]
      cases TokenLine.ofTokens ts with
      | nil => simp [kept_cons]
      | cons l ls => simp [kept_cons, add_assoc]

theorem kept_program {ts : List Token} {p : Program Position} (h : program ts = .ok p) :
    kept ts = Stmt.formsAll p := by
  have hr := forms_lines (r := .start) (.outside trivial) (reading_of_program h)
  rw [kept_ofTokens] at hr
  simpa [Reading.forms, Reading.start, enclosingForms, Stmt.formsAll,
    Stmt.formsAll_reverse] using hr.symm

theorem count_kept (ts : List Token) :
    (kept ts).count (.keyword .endWord) = (ts.map (·.form)).count (.keyword .endWord) := by
  rw [kept, Multiset.coe_count, List.count_filter rfl]

/-- Apart from marks, ends of lines and elses, the tokens of a program are exactly what its tree
says: literals with the offsets of elements, names, calls, operators, declared types and the words
of statements. Every function, loop and conditional has an end, shared where one begins the else
part of another. -/
theorem tokens_accounted {ts : List Token} {p : Program Position} (h : program ts = .ok p) :
    kept ts = Stmt.formsAll p ∧
    (ts.map (·.form)).count (.keyword .endWord) + Stmt.sharedEndsAll p =
      p.kinds.countP NodeKind.isBlock := by
  refine ⟨kept_program h, ?_⟩
  rw [← count_kept, kept_program h, Stmt.count_endsAll, Program.kinds,
    List.countP_cons_of_neg (by decide)]

/-- A chain of two conditionals, with an operator behind its operands. -/
def chainTokens : List Token :=
  [⟨.keyword .ifWord, ⟨1, 1⟩⟩, ⟨.name "a", ⟨1, 4⟩⟩, ⟨.endLine, ⟨1, 5⟩⟩,
    ⟨.name "x", ⟨2, 1⟩⟩, ⟨.mark .colon, ⟨2, 2⟩⟩, ⟨.typeName "int", ⟨2, 4⟩⟩,
    ⟨.connective .assign, ⟨2, 8⟩⟩, ⟨.name "b", ⟨2, 11⟩⟩, ⟨.mark .openBracket, ⟨2, 12⟩⟩,
    ⟨.int 3, ⟨2, 13⟩⟩, ⟨.mark .closeBracket, ⟨2, 14⟩⟩, ⟨.int 1, ⟨2, 16⟩⟩,
    ⟨.connective (.operate .add), ⟨2, 18⟩⟩, ⟨.endLine, ⟨2, 19⟩⟩,
    ⟨.keyword .elseWord, ⟨3, 1⟩⟩, ⟨.keyword .ifWord, ⟨3, 6⟩⟩, ⟨.call "f", ⟨3, 9⟩⟩,
    ⟨.mark .openParen, ⟨3, 10⟩⟩, ⟨.bool true, ⟨3, 11⟩⟩, ⟨.mark .closeParen, ⟨3, 15⟩⟩,
    ⟨.endLine, ⟨3, 16⟩⟩, ⟨.keyword .endWord, ⟨4, 1⟩⟩, ⟨.endLine, ⟨4, 4⟩⟩]

theorem chainTokens_accounted :
    Token.ofLines ["if a", "x: int <- b[3] 1 +", "else if f(true)", "end"] = .ok chainTokens ∧
      ∃ p, program chainTokens = .ok p ∧ kept chainTokens = Stmt.formsAll p ∧
        (chainTokens.map (·.form)).count (.keyword .endWord) + Stmt.sharedEndsAll p =
          p.kinds.countP NodeKind.isBlock := by
  have h : program chainTokens = .ok
      [.branch ⟨1, 1⟩ (.place (.whole ⟨1, 4⟩ "a" none))
        [.expr (.assign ⟨2, 1⟩ (.whole ⟨2, 1⟩ "x" (some ⟨"int", false⟩))
          (.binary ⟨2, 18⟩ .add (.place (.element ⟨2, 11⟩ "b" 3)) (.int ⟨2, 16⟩ 1)))]
        [.branch ⟨3, 6⟩ (.call ⟨3, 9⟩ "f" [.bool ⟨3, 11⟩ true]) [] []]] := by
    with_unfolding_all rfl
  exact ⟨eq_ok_of_toOption (by decide +kernel), _, h, tokens_accounted h⟩

end Grammar
end AlgoFrontEnd
