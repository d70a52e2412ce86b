import AlgoFrontEnd.Grammar.Program
import AlgoFrontEnd.Proofs.Success

/-! What a line does to the blocks that are open. Main statement: in every program, a conditional
that begins an else part is all of it. -/
namespace AlgoFrontEnd
open Token (Form)

section
variable {α : Type}

def Stmt.isBranch : Stmt α → Bool
  | .branch _ _ _ _ => true
  | _ => false

/-- Whether a body begins with a conditional. -/
def opensBranch : List (Stmt α) → Bool
  | [] => false
  | s :: _ => s.isBranch

theorem opensBranch_append {xs : List (Stmt α)} (h : xs ≠ []) (ys : List (Stmt α)) :
    opensBranch (xs ++ ys) = opensBranch xs := by
  cases xs with
  | nil => exact absurd rfl h
  | cons s ss => rfl

/-- A conditional that begins an else part shares its end, and nothing may follow it there. -/
def LoneBranch (elseBody : List (Stmt α)) : Prop :=
  opensBranch elseBody = true → elseBody.length = 1

theorem loneBranch_of_eq_false {ss : List (Stmt α)} (h : opensBranch ss = false) :
    LoneBranch ss := by
  intro ho
  rw [h] at ho
  cases ho

mutual
/-- Else parts that begin with a conditional hold nothing else, at every depth. -/
def Stmt.ElseAlone : Stmt α → Prop
  | .function _ _ body | .loop _ _ body => Stmt.ElseAloneAll body
  | .branch _ _ thenBody elseBody =>
    Stmt.ElseAloneAll thenBody ∧ Stmt.ElseAloneAll elseBody ∧ LoneBranch elseBody
  | .declare _ _ | .give _ _ | .expr _ => True

def Stmt.ElseAloneAll : List (Stmt α) → Prop
  | [] => True
  | s :: ss => s.ElseAlone ∧ Stmt.ElseAloneAll ss
end

theorem elseAloneAll_append {xs ys : List (Stmt α)} :
    Stmt.ElseAloneAll (xs ++ ys) ↔ Stmt.ElseAloneAll xs ∧ Stmt.ElseAloneAll ys := by
  induction xs with
  | nil => simp [Stmt.ElseAloneAll]
  | cons s ss ih => rw [List.cons_append, Stmt.ElseAloneAll, Stmt.ElseAloneAll, ih, and_assoc]

theorem elseAloneAll_reverse {ss : List (Stmt α)} :
    Stmt.ElseAloneAll ss.reverse ↔ Stmt.ElseAloneAll ss := by
  induction ss with
  | nil => simp
  | cons s ss ih =>
    rw [List.reverse_cons, elseAloneAll_append, ih]
    simp only [Stmt.ElseAloneAll, and_true]
    exact and_comm

end

namespace Grammar

/-! ### What a line can do -/

/-- What a line makes of a reading, one way for each kind of line. -/
inductive Reading.Step (stop : Position) : Reading → List Token → Reading → Prop
  | blank {r : Reading} : Step stop r [] r
  | branch {r : Reading} {p : Position} {ts : List Token} {e : Expr Position}
      (h : expression stop ts = .ok e) :
      Step stop r (⟨.keyword .ifWord, p⟩ :: ts) (r.enter (.thenPart p e r.startsElse))
  | loop {r : Reading} {p : Position} {ts : List Token} {e : Expr Position}
      (h : expression stop ts = .ok e) :
      Step stop r (⟨.keyword .whileWord, p⟩ :: ts) (r.enter (.loop p e))
  | function {r : Reading} {p : Position} {ts : List Token} {head : Header Position}
      (h : header stop ts = .ok head) :
      Step stop r (⟨.keyword .functionWord, p⟩ :: ts) (r.enter (.function p head))
  | declare {r : Reading} {p q : Position} {ts : List Token} {head : Header Position}
      (h : header stop ts = .ok head) :
      Step stop r (⟨.keyword .declareWord, p⟩ :: ⟨.keyword .functionWord, q⟩ :: ts)
        (r.add (.declare p head))
  | give {r : Reading} {p : Position} :
      Step stop r [⟨.keyword .returnWord, p⟩] (r.add (.give p none))
  | giveValue {r : Reading} {p : Position} {ts : List Token} {e : Expr Position}
      (h : expression stop ts = .ok e) :
      Step stop r (⟨.keyword .returnWord, p⟩ :: ts) (r.add (.give p (some e)))
  | otherwise {r r₁ r₂ : Reading} {p : Position} {ts : List Token} (h : r.turn = some r₁)
      (hs : Step stop r₁ ts r₂) : Step stop r (⟨.keyword .elseWord, p⟩ :: ts) r₂
  | close {r r₁ : Reading} {p : Position} (h : Reading.close r.body r.enclosing = some r₁) :
      Step stop r [⟨.keyword .endWord, p⟩] r₁
  | expr {r : Reading} {t : Token} {ts : List Token} {e : Expr Position}
      (hk : ∀ k, t.form ≠ .keyword k) (h : expression stop (t :: ts) = .ok e) :
      Step stop r (t :: ts) (r.add (.expr e))

theorem expectEnd_eq_ok {ts : List Token} {u : Unit} : expectEnd ts = .ok u ↔ ts = [] := by
  cases ts with
  | nil => simp [expectEnd]
  | cons t ts => exact ⟨fun h => absurd h fault_ne_ok, nofun⟩

theorem step_of_line {stop : Position} {r r' : Reading} {ts : List Token}
    (h : r.line stop ts = .ok r') : r.Step stop ts r' := by
  induction ts generalizing r with
  | nil =>
    cases h
    exact .blank
  | cons t ts ih =>
    obtain ⟨form, p⟩ := t
    unfold Reading.line at h
    split at h
    case h_1 hf =>
      obtain ⟨e, he, h⟩ := bind_eq_ok.mp h
      cases h
      cases hf
      exact .branch he
    case h_2 hf =>
      obtain ⟨e, he, h⟩ := bind_eq_ok.mp h
      cases h
      cases hf
      exact .loop he
    case h_3 hf =>
      obtain ⟨e, he, h⟩ := bind_eq_ok.mp h
      cases h
      cases hf
      exact .function he
    case h_4 hf =>
      cases hf
      split at h
      · obtain ⟨e, he, h⟩ := bind_eq_ok.mp h
        cases h
        exact .declare he
      · exact absurd h fault_ne_ok
    case h_5 hf =>
      cases hf
      split at h
      · cases h
        exact .give
      · obtain ⟨e, he, h⟩ := bind_eq_ok.mp h
        cases h
        exact .giveValue he
    case h_6 hf =>
      cases hf
      split at h
      · exact .otherwise ‹_› (ih h)
      · exact absurd h fault_ne_ok
    case h_7 hf =>
      cases hf
      split at h
      · obtain ⟨u, hu, h⟩ := bind_eq_ok.mp h
        cases h
        obtain rfl := expectEnd_eq_ok.mp hu
        exact .close ‹_›
      · exact absurd h fault_ne_ok
    case h_8 => exact absurd h fault_ne_ok
    case h_9 h₁ h₂ h₃ h₄ h₅ h₆ h₇ h₈ =>
      obtain ⟨e, he, h⟩ := bind_eq_ok.mp h
      cases h
      refine .expr (fun k hk => ?_) he
      cases k with
      | unknown text => exact h₈ text hk
      | _ => simp_all

theorem line_of_step {stop : Position} {r r' : Reading} {ts : List Token}
    (h : r.Step stop ts r') : r.line stop ts = .ok r' := by
  induction h with
  | blank => rfl
  | branch h | loop h | function h | declare h => exact bind_eq_ok.mpr ⟨_, h, rfl⟩
  | give => rfl
  | @giveValue r p ts e h =>
    cases ts with
    | nil => exact absurd h fault_ne_ok
    | cons t ts => exact bind_eq_ok.mpr ⟨_, h, rfl⟩
  | otherwise h _ ih =>
    simp only [Reading.line, h]
    exact ih
  | close h =>
    simp only [Reading.line, h]
    rfl
  | @expr r t ts e hk h =>
    obtain ⟨form, p⟩ := t
    have he : r.line stop (⟨form, p⟩ :: ts) =
        expression stop (⟨form, p⟩ :: ts) >>= fun e => .ok (r.add (.expr e)) := by
      cases form with
      | keyword k => exact absurd rfl (hk k)
      | _ => rfl
    rw [he]
    exact bind_eq_ok.mpr ⟨_, h, rfl⟩

/-! ### Else parts -/

theorem startsElse_eq_true {body : List (Stmt Position)}
    {enclosing : List (Block × List (Stmt Position))}
    (h : Reading.startsElse ⟨body, enclosing⟩ = true) :
    body = [] ∧ ∃ p c thenBody chained before outer,
      enclosing = (.elsePart p c thenBody chained, before) :: outer := by
  unfold Reading.startsElse at h
  split at h
  · rename_i p c thenBody chained before outer hb he
    exact ⟨hb, p, c, thenBody, chained, before, outer, he⟩
  · cases h

/-- What is known while a body is read inside of blocks. A conditional is chained exactly where
it begins an else part, so no open else part begins with one that has been read to its end. -/
inductive Held : List (Stmt Position) → List (Block × List (Stmt Position)) → Prop
  | outside {body : List (Stmt Position)} (hs : Stmt.ElseAloneAll body) : Held body []
  | function {body before : List (Stmt Position)} {outer : List (Block × List (Stmt Position))}
      (p : Position) (head : Header Position) (hs : Stmt.ElseAloneAll body)
      (ho : Held before outer) : Held body ((.function p head, before) :: outer)
  | loop {body before : List (Stmt Position)} {outer : List (Block × List (Stmt Position))}
      (p : Position) (c : Expr Position) (hs : Stmt.ElseAloneAll body) (ho : Held before outer) :
      Held body ((.loop p c, before) :: outer)
  | thenPart {body before : List (Stmt Position)} {outer : List (Block × List (Stmt Position))}
      (p : Position) (c : Expr Position) (hs : Stmt.ElseAloneAll body) (ho : Held before outer) :
      Held body ((.thenPart p c (Reading.startsElse ⟨before, outer⟩), before) :: outer)
  | elsePart {body before : List (Stmt Position)} {outer : List (Block × List (Stmt Position))}
      (p : Position) (c : Expr Position) {thenBody : List (Stmt Position)}
      (ht : Stmt.ElseAloneAll thenBody) (hs : Stmt.ElseAloneAll body)
      (hb : opensBranch body.reverse = false) (ho : Held before outer) :
      Held body ((.elsePart p c thenBody (Reading.startsElse ⟨before, outer⟩), before) :: outer)

theorem Held.add {body : List (Stmt Position)} {enclosing : List (Block × List (Stmt Position))}
    (h : Held body enclosing) {s : Stmt Position} (hs : s.ElseAlone)
    (hb : Reading.startsElse ⟨body, enclosing⟩ = true → s.isBranch = false) :
    Held (s :: body) enclosing := by
  cases h with
  | outside hbody => exact .outside ⟨hs, hbody⟩
  | function p head hbody ho => exact .function p head ⟨hs, hbody⟩ ho
  | loop p c hbody ho => exact .loop p c ⟨hs, hbody⟩ ho
  | thenPart p c hbody ho => exact .thenPart p c ⟨hs, hbody⟩ ho
  | elsePart p c ht hbody ho hold =>
    refine .elsePart p c ht ⟨hs, hbody⟩ ?_ hold
    by_cases hempty : body = []
    · subst hempty
      exact hb rfl
    · rw [List.reverse_cons, opensBranch_append (by simpa using hempty)]
      exact ho

/-- The end of a chain closes every conditional of it. -/
theorem held_chain {before : List (Stmt Position)} {outer : List (Block × List (Stmt Position))}
    (h : Held before outer) {s : Stmt Position} (hs : s.ElseAlone) {r : Reading}
    (hc : (if Reading.startsElse ⟨before, outer⟩ then Reading.close (s :: before) outer
      else some ⟨s :: before, outer⟩) = some r) : Held r.body r.enclosing := by
  induction outer generalizing before s with
  | nil =>
    split at hc
    · cases hc
    · cases hc
      exact h.add hs fun hstarts => absurd hstarts ‹_›
  | cons b outer ih =>
    split at hc
    · rename_i hstarts
      obtain ⟨rfl, p, c, thenBody, chained, before, outer, he⟩ := startsElse_eq_true hstarts
      cases he
      cases h with
      | elsePart _ _ ht _ _ ho =>
        exact ih ho (s := .branch p c thenBody [s]) ⟨ht, ⟨hs, trivial⟩, fun _ => rfl⟩ hc
    · cases hc
      exact h.add hs fun hstarts => absurd hstarts ‹_›

theorem Held.close {body : List (Stmt Position)}
    {enclosing : List (Block × List (Stmt Position))} (h : Held body enclosing) {r : Reading}
    (hc : Reading.close body enclosing = some r) : Held r.body r.enclosing := by
  cases h with
  | outside hs => cases hc
  | function p head hs ho =>
    cases hc
    exact ho.add (elseAloneAll_reverse.mpr hs) fun _ => rfl
  | loop p c hs ho =>
    cases hc
    exact ho.add (elseAloneAll_reverse.mpr hs) fun _ => rfl
  | thenPart p c hs ho =>
    exact held_chain ho (s := .branch p c body.reverse [])
      ⟨elseAloneAll_reverse.mpr hs, trivial, loneBranch_of_eq_false rfl⟩ hc
  | @elsePart _ _ _ p c thenBody ht hs hb ho =>
    exact held_chain ho (s := .branch p c thenBody body.reverse)
      ⟨ht, elseAloneAll_reverse.mpr hs, loneBranch_of_eq_false hb⟩ hc

theorem Held.turn {r r' : Reading} (h : Held r.body r.enclosing) (ht : r.turn = some r') :
    Held r'.body r'.enclosing := by
  obtain ⟨body, enclosing⟩ := r
  unfold Reading.turn at ht
  split at ht
  · rename_i he
    cases ht
    simp only at he
    subst he
    cases h with
    | thenPart _ _ hs ho => exact .elsePart _ _ (elseAloneAll_reverse.mpr hs) trivial rfl ho
  · cases ht

theorem Held.elseAlone {body : List (Stmt Position)}
    {enclosing : List (Block × List (Stmt Position))} (h : Held body enclosing) :
    Stmt.ElseAloneAll body := by
  cases h <;> assumption

/-- Every line keeps what is known. -/
theorem Held.step {stop : Position} {r r' : Reading} {ts : List Token}
    (h : Held r.body r.enclosing) (hs : r.Step stop ts r') : Held r'.body r'.enclosing := by
  induction hs with
  | blank => exact h
  | branch => exact .thenPart _ _ trivial h
  | loop => exact .loop _ _ trivial h
  | function => exact .function _ _ trivial h
  | declare | give | giveValue | expr => exact h.add trivial fun _ => rfl
  | otherwise ht _ ih => exact ih (h.turn ht)
  | close hc => exact h.close hc

theorem Held.lines {r r' : Reading} {ls : List TokenLine} (h : Held r.body r.enclosing)
    (hr : r.lines ls = .ok r') : Held r'.body r'.enclosing := by
  induction ls generalizing r with
  | nil =>
    cases hr
    exact h
  | cons l ls ih =>
    obtain ⟨r₁, hl, hr⟩ := bind_eq_ok.mp hr
    exact ih (h.step (step_of_line hl)) hr

/-- Programs do not put anything behind a conditional that begins an else part. -/
theorem elseAlone_of_program {ts : List Token} {p : Program Position} (h : program ts = .ok p) :
    Stmt.ElseAloneAll p := by
  obtain ⟨⟨body, enclosing⟩, hr, h⟩ := bind_eq_ok.mp h
  have held := Held.lines (r := .start) (.outside trivial) hr
  cases enclosing with
  | nil =>
    cases h
    exact elseAloneAll_reverse.mpr held.elseAlone
  | cons b outer => exact absurd h fault_ne_ok

end Grammar
end AlgoFrontEnd
