import AlgoFrontEnd.Proofs.Grammar.Completeness
import AlgoFrontEnd.Proofs.Grammar.Lines

/-! Phrases as lines of their own. Main statement: such a line is a program of one statement, the
tree of the phrase. -/
namespace AlgoFrontEnd.Grammar
open Token (Form)

/-- What binds tighter also stands where a looser phrase may. -/
theorem Phrase.exists_looser {start : Bool} {n m : Nat} (h : n ≤ m) (d : Phrase start m) :
    ∃ d' : Phrase start n, d'.tokens = d.tokens ∧ d'.tree = d.tree := by
  induction h with
  | refl => exact ⟨d, rfl, rfl⟩
  | step h ih => exact ih (.tighter d)

/-- A token that ends no line and shapes no statement. -/
def Inner (t : Token) : Prop := t.form ≠ .endLine ∧ ∀ k, t.form ≠ .keyword k

theorem Spot.inner {start : Bool} (s : Spot start) : ∀ t ∈ s.tokens, Inner t := by
  cases s with
  | plain => simp [Spot.tokens, Inner]
  | typed text type =>
    simp [Spot.tokens, Inner, typeForm]
    split <;> simp
  | element => simp [Spot.tokens, Inner]

theorem Target.inner {start : Bool} (t : Target start) : ∀ u ∈ t.tokens, Inner u := by
  induction t with
  | spot s => exact s.inner
  | parens opener closer inside ih =>
    simp only [Target.tokens, List.cons_append, List.forall_mem_cons, List.forall_mem_append]
    exact ⟨by simp [Inner], ih, by simp [Inner]⟩

mutual
theorem Phrase.inner {start : Bool} {n : Nat} : (d : Phrase start n) → ∀ t ∈ d.tokens, Inner t
  | .int _ _ | .float _ _ | .bool _ _ | .string _ _ => by simp [Phrase.tokens, Inner]
  | .spot s => s.inner
  | .call text position opener closer arguments => by
    simp only [Phrase.tokens, List.cons_append, List.forall_mem_cons, List.forall_mem_append]
    exact ⟨by simp [Inner], by simp [Inner], arguments.inner, by simp [Inner]⟩
  | .array opener closer elements => by
    simp only [Phrase.tokens, List.cons_append, List.forall_mem_cons, List.forall_mem_append]
    exact ⟨by simp [Inner], elements.inner, by simp [Inner]⟩
  | .parens opener closer inside => by
    simp only [Phrase.tokens, List.cons_append, List.forall_mem_cons, List.forall_mem_append]
    exact ⟨by simp [Inner], inside.inner, by simp [Inner]⟩
  | .sign s position operand => by
    simp only [Phrase.tokens, List.forall_mem_cons]
    exact ⟨by simp [Inner], operand.inner⟩
  | .binary op position left right => by
    simp only [Phrase.tokens, List.forall_mem_cons, List.forall_mem_append]
    exact ⟨left.inner, by simp [Inner], right.inner⟩
  | .assign position target source => by
    simp only [Phrase.tokens, List.forall_mem_cons, List.forall_mem_append]
    exact ⟨target.inner, by simp [Inner], source.inner⟩
  | .tighter phrase => phrase.inner

theorem Items.inner : (d : Items) → ∀ t ∈ d.tokens, Inner t
  | .none => by simp [Items.tokens]
  | .some items => items.inner

theorem Sequence.inner : (d : Sequence) → ∀ t ∈ d.tokens, Inner t
  | .one item => item.inner
  | .more item comma items => by
    simp only [Sequence.tokens, List.forall_mem_cons, List.forall_mem_append]
    exact ⟨item.inner, by simp [Inner], items.inner⟩
end

theorem ofTokens_line {ts : List Token} (h : ∀ t ∈ ts, t.form ≠ .endLine) (stop : Position) :
    TokenLine.ofTokens (ts ++ [⟨.endLine, stop⟩]) = [⟨ts, stop⟩] := by
  induction ts with
  | nil => rfl
  | cons t ts ih =>
    obtain ⟨ht, h⟩ := List.forall_mem_cons.mp h
    rw [List.cons_append, ofTokens_cons ht, ih h]

/-- A line that no keyword begins is an expression. -/
theorem line_expression {t : Token} (h : ∀ k, t.form ≠ .keyword k) (r : Reading)
    (stop : Position) (ts : List Token) :
    r.line stop (t :: ts) =
      expression stop (t :: ts) >>= fun e => .ok (r.add (.expr e)) := by
  obtain ⟨form, p⟩ := t
  cases form with
  | keyword k => exact absurd rfl (h k)
  | _ => rfl

/-- A line that is a phrase is a statement. -/
theorem program_phrase (d : Phrase false 0) (stop : Position) :
    program (d.tokens ++ [⟨.endLine, stop⟩]) = .ok [.expr d.tree] := by
  obtain ⟨y, hy, hs⟩ := d.reads (y := .empty) (fun _ h => by cases h) (by simp)
  obtain ⟨t, ts, hts⟩ := List.exists_cons_of_ne_nil d.tokens_ne_nil
  have hline : Reading.start.line stop d.tokens = .ok ⟨[.expr d.tree], []⟩ := by
    have hf := hy.finish hs t.position
    have hk := (d.inner t (by simp [hts])).2
    rw [hts] at hf ⊢
    rw [line_expression hk, expression, hf]
    rfl
  rw [program, ofTokens_line fun t ht => (d.inner t ht).1]
  simp only [Reading.lines, hline]
  rfl

end AlgoFrontEnd.Grammar
