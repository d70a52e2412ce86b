import AlgoFrontEnd.Proofs.Grammar.Census
import AlgoFrontEnd.Proofs.Tree.Expressions

/-! Statements recovered from their printed lines. Main statement: in front of lines that are not
under it, the lines of a body are those of no other body, and end where they do. -/
namespace AlgoFrontEnd
open Token (Form)

/-! ### First lines -/

/-- What the first line of a statement begins with. -/
inductive Opening where
  | function | declare | branch | loop | give | assign | expr

namespace Opening

def text : Opening → String
  | function => "Function: "
  | declare => "Declare: "
  | branch => "If ("
  | loop => "While ("
  | give => "Return"
  | assign => "Assign: "
  | expr => "Expr: "

def initial : Opening → Char
  | function => 'F'
  | declare => 'D'
  | branch => 'I'
  | loop => 'W'
  | give => 'R'
  | assign => 'A'
  | expr => 'E'

theorem exists_toList_text (o : Opening) : ∃ more, o.text.toList = o.initial :: more := by
  cases o <;> exact ⟨_, rfl⟩

theorem initial_injective : Function.Injective initial := by
  intro o o' h
  cases o <;> cases o' <;> first | rfl | cases h

/-- The first letter tells how a line begins. -/
theorem cancel {o o' : Opening} {s t : String} (h : o.text ++ s = o'.text ++ t) :
    o = o' ∧ s = t := by
  have htoList := congrArg String.toList h
  obtain ⟨more, hmore⟩ := o.exists_toList_text
  obtain ⟨more', hmore'⟩ := o'.exists_toList_text
  rw [String.toList_append, String.toList_append, hmore, hmore'] at htoList
  obtain rfl := initial_injective (List.cons.inj htoList).1
  exact ⟨rfl, (String.append_right_inj _).mp h⟩

end Opening

namespace Stmt
variable {α : Type} {floats : Set Float} {s t : Stmt α} {ss tt : List (Stmt α)}

def opening : Stmt α → Opening
  | function _ _ _ => .function
  | declare _ _ => .declare
  | branch _ _ _ _ => .branch
  | loop _ _ _ => .loop
  | give _ _ => .give
  | expr (.assign _ _ _) => .assign
  | expr _ => .expr

/-- What the first line of a statement says behind its beginning. -/
def subject : Stmt α → String
  | function _ header _ | declare _ header => header.text
  | branch _ condition _ _ | loop _ condition _ => condition.text ++ ")"
  | give _ (some value) => " " ++ value.text
  | give _ none => ""
  | expr (.assign _ target value) => target.text ++ " <- " ++ value.text
  | expr e => e.text

def headline (s : Stmt α) : String := s.opening.text ++ s.subject

/-- The lines of an else part, and nothing in front of an empty one. -/
def alternative (level : Nat) (elseBody : List (Stmt α)) : List PrintedLine :=
  if elseBody.isEmpty then [] else ⟨level, "Else:"⟩ :: printedAll (level + 1) elseBody

/-- The lines under the first one. -/
def indented (level : Nat) : Stmt α → List PrintedLine
  | function _ _ body | loop _ _ body => printedAll (level + 1) body
  | branch _ _ thenBody elseBody =>
    ⟨level + 1, "Then:"⟩ :: printedAll (level + 2) thenBody ++ alternative (level + 1) elseBody
  | _ => []

theorem printed_eq (level : Nat) (s : Stmt α) :
    s.printed level = ⟨level, s.headline⟩ :: s.indented level := by
  cases s with
  | function n header body => rw [printed]; rfl
  | declare n header => rw [printed]; rfl
  | branch n condition thenBody elseBody =>
    rw [printed, headline, opening, subject, ← String.append_assoc]
    rfl
  | loop n condition body =>
    rw [printed, headline, opening, subject, ← String.append_assoc]
    rfl
  | give n value =>
    cases value with
    | none => rfl
    | some e =>
      rw [printed, headline, opening, subject, ← String.append_assoc]
      rfl
  | expr e =>
    cases e with
    | assign n target value =>
      rw [printed, headline, opening, subject, ← String.append_assoc]
      rfl
    | _ => rfl

/-! ### Parts of legible statements -/

def Legible (floats : Set Float) (s : Stmt α) : Prop := ∀ f ∈ s.forms, f.Legible floats

def LegibleAll (floats : Set Float) (ss : List (Stmt α)) : Prop :=
  ∀ f ∈ formsAll ss, f.Legible floats

theorem legibleAll_cons :
    LegibleAll floats (s :: ss) ↔ s.Legible floats ∧ LegibleAll floats ss := by
  simp only [LegibleAll, Legible, formsAll, Multiset.mem_add, or_imp, forall_and]

theorem Legible.function {n : α} {header : Header α} {body : List (Stmt α)}
    (h : (function n header body).Legible floats) :
    header.Legible floats ∧ LegibleAll floats body := by
  simp only [Legible, forms, Multiset.mem_cons, Multiset.mem_add, or_imp, forall_and] at h
  exact h.2.2

theorem Legible.declare {n : α} {header : Header α} (h : (declare n header).Legible floats) :
    header.Legible floats :=
  fun f hf => h f (Multiset.mem_cons_of_mem (Multiset.mem_cons_of_mem hf))

theorem Legible.branch {n : α} {condition : Expr α} {thenBody elseBody : List (Stmt α)}
    (h : (branch n condition thenBody elseBody).Legible floats) :
    condition.Legible floats ∧ LegibleAll floats thenBody ∧ LegibleAll floats elseBody := by
  simp only [Legible, forms, Multiset.mem_cons, Multiset.mem_add, or_imp, forall_and] at h
  exact ⟨h.2.2.1.1, h.2.2.1.2, h.2.2.2⟩

theorem Legible.loop {n : α} {condition : Expr α} {body : List (Stmt α)}
    (h : (loop n condition body).Legible floats) :
    condition.Legible floats ∧ LegibleAll floats body := by
  simp only [Legible, forms, Multiset.mem_cons, Multiset.mem_add, or_imp, forall_and] at h
  exact h.2.2

theorem Legible.give {n : α} {value : Expr α} (h : (give n (some value)).Legible floats) :
    value.Legible floats :=
  fun f hf => h f (Multiset.mem_cons_of_mem hf)

theorem Legible.expr {e : Expr α} (h : (expr e).Legible floats) : e.Legible floats := h

/-! ### Statements told by their first lines -/

/-- A statement with neither notes nor anything under its first line. -/
def bare : Stmt α → Stmt Unit
  | function _ header _ => function () (header.map fun _ => ()) []
  | declare _ header => declare () (header.map fun _ => ())
  | branch _ condition _ _ => branch () (condition.map fun _ => ()) [] []
  | loop _ condition _ => loop () (condition.map fun _ => ()) []
  | give _ value => give () (value.map (Expr.map fun _ => ()))
  | expr e => expr (e.map fun _ => ())

/-- Whether a statement has nothing under its first line. -/
def isLine : Stmt α → Bool
  | declare _ _ | give _ _ | expr _ => true
  | _ => false

theorem isLine_bare (s : Stmt α) : s.bare.isLine = s.isLine := by
  cases s <;> rfl

theorem map_eq_bare (h : s.isLine = true) : s.map (fun _ => ()) = s.bare := by
  cases s with
  | declare | give | expr => rfl
  | _ => cases h

theorem indented_eq_nil {level : Nat} (h : s.isLine = true) : s.indented level = [] := by
  cases s with
  | declare | give | expr => rfl
  | _ => cases h

/-- Only an assignment goes without the parentheses around it. -/
theorem text_of_subject (e : Expr α) :
    (expr e).opening = .assign ∧ e.text = "(" ++ (expr e).subject ++ ")" ∨
      (expr e).opening = .expr ∧ e.text = (expr e).subject := by
  cases e with
  | assign n target value =>
    refine .inl ⟨rfl, ?_⟩
    simp only [Expr.text, subject, String.append_assoc]
    rfl
  | _ => exact .inr ⟨rfl, rfl⟩

theorem text_eq_of_subject {e e' : Expr α} (ho : (expr e).opening = (expr e').opening)
    (hs : (expr e).subject = (expr e').subject) : e.text = e'.text := by
  rcases text_of_subject e with ⟨hopening, htext⟩ | ⟨hopening, htext⟩ <;>
    rcases text_of_subject e' with ⟨hopening', htext'⟩ | ⟨hopening', htext'⟩
  · rw [htext, htext', hs]
  · cases hopening.symm.trans (ho.trans hopening')
  · cases hopening.symm.trans (ho.trans hopening')
  · rw [htext, htext', hs]

section
variable (hf : Number.Distinct floats)
include hf

theorem expr_map_eq {e e' : Expr α} (he : e.Legible floats) (he' : e'.Legible floats)
    (h : e.text = e'.text) : e.map (fun _ => ()) = e'.map fun _ => () :=
  (Expr.told hf e he e' [] [] he' halts_nil halts_nil
    (congrArg (·.toList ++ []) h)).1

theorem give_map_eq {n n' : α} {value value' : Option (Expr α)}
    (hs : (give n value).Legible floats) (ht : (give n' value').Legible floats)
    (h : (give n value).subject = (give n' value').subject) :
    value.map (Expr.map fun _ => ()) = value'.map (Expr.map fun _ => ()) := by
  cases value with
  | none =>
    cases value' with
    | none => rfl
    | some e' => exact absurd (congrArg String.toList h) (by simp [subject])
  | some e =>
    cases value' with
    | none => exact absurd (congrArg String.toList h) (by simp [subject])
    | some e' =>
      have hvalue := expr_map_eq hf hs.give ht.give ((String.append_right_inj _).mp h)
      rw [Option.map_some, Option.map_some, hvalue]

/-- The first line tells all of a statement but what stands under it. -/
theorem bare_eq_of_headline (hs : s.Legible floats) (ht : t.Legible floats)
    (h : s.headline = t.headline) : s.bare = t.bare := by
  obtain ⟨hopening, hsubject⟩ := Opening.cancel h
  cases s with
  | function n header body =>
    cases t with
    | function n' header' body' =>
      have hheader := Header.map_eq_of_text hs.function.1 ht.function.1 hsubject
      rw [bare, bare, hheader]
    | expr e => cases e <;> cases hopening
    | _ => cases hopening
  | declare n header =>
    cases t with
    | declare n' header' =>
      have hheader := Header.map_eq_of_text hs.declare ht.declare hsubject
      rw [bare, bare, hheader]
    | expr e => cases e <;> cases hopening
    | _ => cases hopening
  | branch n condition thenBody elseBody =>
    cases t with
    | branch n' condition' thenBody' elseBody' =>
      have hcondition := expr_map_eq hf hs.branch.1 ht.branch.1
        ((String.append_left_inj _).mp hsubject)
      rw [bare, bare, hcondition]
    | expr e => cases e <;> cases hopening
    | _ => cases hopening
  | loop n condition body =>
    cases t with
    | loop n' condition' body' =>
      have hcondition := expr_map_eq hf hs.loop.1 ht.loop.1
        ((String.append_left_inj _).mp hsubject)
      rw [bare, bare, hcondition]
    | expr e => cases e <;> cases hopening
    | _ => cases hopening
  | give n value =>
    cases t with
    | give n' value' =>
      have hvalue := give_map_eq hf hs ht hsubject
      rw [bare, bare, hvalue]
    | expr e => cases e <;> cases hopening
    | _ => cases hopening
  | expr e =>
    cases t with
    | expr e' =>
      have he := expr_map_eq hf hs.expr ht.expr (text_eq_of_subject hopening hsubject)
      rw [bare, bare, he]
    | _ => cases e <;> cases hopening

end

/-! ### Statements told by their lines -/

/-- Nothing, or a line that a body at this level does not go on with. -/
def Outside (level : Nat) (rest : List PrintedLine) : Prop := ∀ l ∈ rest.head?, l.level < level

theorem outside_nil {level : Nat} : Outside level [] := nofun

theorem outside_cons {level : Nat} {l : PrintedLine} (h : l.level < level)
    (rest : List PrintedLine) : Outside level (l :: rest) := by
  simpa [Outside] using h

theorem Outside.mono {level level' : Nat} {rest : List PrintedLine} (h : Outside level rest)
    (hle : level ≤ level') : Outside level' rest :=
  fun l hl => (h l hl).trans_le hle

/-- What is outside a body does not begin at its level. -/
theorem Outside.ne_cons {level : Nat} {rest : List PrintedLine} (h : Outside level rest)
    (content : String) (more : List PrintedLine) : rest ≠ ⟨level, content⟩ :: more := by
  rintro rfl
  exact lt_irrefl level (h ⟨level, content⟩ rfl)

/-- In front of what is not under it, a statement is told by its lines. -/
def Told (floats : Set Float) (s : Stmt α) : Prop :=
  ∀ (t : Stmt α) (level : Nat) (rest rest' : List PrintedLine), t.Legible floats →
    Outside (level + 1) rest → Outside (level + 1) rest' →
    s.printed level ++ rest = t.printed level ++ rest' →
    s.map (fun _ => ()) = t.map (fun _ => ()) ∧ rest = rest'

/-- In front of what is outside, a body is told by its lines. -/
def ToldAll (floats : Set Float) (ss : List (Stmt α)) : Prop :=
  ∀ (tt : List (Stmt α)) (level : Nat) (rest rest' : List PrintedLine), LegibleAll floats tt →
    Outside level rest → Outside level rest' →
    printedAll level ss ++ rest = printedAll level tt ++ rest' →
    mapAll (fun _ => ()) ss = mapAll (fun _ => ()) tt ∧ rest = rest'

theorem printedAll_cons (level : Nat) (s : Stmt α) (ss : List (Stmt α)) :
    printedAll level (s :: ss) =
      ⟨level, s.headline⟩ :: (s.indented level ++ printedAll level ss) := by
  rw [printedAll, printed_eq, List.cons_append]

/-- A body is outside what stands under a statement before it. -/
theorem outside_printedAll {level : Nat} {rest : List PrintedLine} (h : Outside (level + 1) rest)
    (ss : List (Stmt α)) : Outside (level + 1) (printedAll level ss ++ rest) := by
  cases ss with
  | nil => exact h
  | cons s ss =>
    rw [printedAll_cons]
    exact outside_cons (Nat.lt_succ_self level) _

theorem toldAll_nil : ToldAll floats ([] : List (Stmt α)) := by
  intro tt level rest rest' _ hr _ h
  cases tt with
  | nil => exact ⟨rfl, h⟩
  | cons t tt =>
    rw [printedAll_cons] at h
    exact absurd h (hr.ne_cons _ _)

theorem toldAll_cons (hs : s.Told floats) (hss : ToldAll floats ss) :
    ToldAll floats (s :: ss) := by
  intro tt level rest rest' htt hr hr' h
  cases tt with
  | nil =>
    rw [printedAll_cons] at h
    exact absurd h.symm (hr'.ne_cons _ _)
  | cons t tt =>
    rw [printedAll, printedAll, List.append_assoc, List.append_assoc] at h
    obtain ⟨ht, htt⟩ := legibleAll_cons.mp htt
    -- the statement that comes next stands on the level of this one, so nothing under this one
    -- goes on with it
    obtain ⟨hmap, h⟩ := hs t level _ _ ht (outside_printedAll (hr.mono (Nat.le_succ level)) ss)
      (outside_printedAll (hr'.mono (Nat.le_succ level)) tt) h
    obtain ⟨hmaps, hrest⟩ := hss tt level rest rest' htt hr hr' h
    rw [mapAll, mapAll, hmap, hmaps]
    exact ⟨rfl, hrest⟩

theorem outside_alternative {level : Nat} {rest : List PrintedLine} (h : Outside (level + 1) rest)
    (elseBody : List (Stmt α)) :
    Outside (level + 2) (alternative (level + 1) elseBody ++ rest) := by
  unfold alternative
  split
  · exact h.mono (Nat.le_succ _)
  · exact outside_cons (Nat.lt_succ_self _) _

/-- An else part is told by its lines, an empty one by their absence. -/
theorem alternative_told {elseBody elseBody' : List (Stmt α)} {level : Nat}
    {rest rest' : List PrintedLine} (he : ToldAll floats elseBody)
    (he' : LegibleAll floats elseBody') (hr : Outside level rest) (hr' : Outside level rest')
    (h : alternative level elseBody ++ rest = alternative level elseBody' ++ rest') :
    mapAll (fun _ => ()) elseBody = mapAll (fun _ => ()) elseBody' ∧ rest = rest' := by
  cases elseBody with
  | nil =>
    cases elseBody' with
    | nil => exact ⟨rfl, h⟩
    | cons t tt => exact absurd h (hr.ne_cons _ _)
  | cons s ss =>
    cases elseBody' with
    | nil => exact absurd h.symm (hr'.ne_cons _ _)
    | cons t tt =>
      exact he (t :: tt) (level + 1) rest rest' he' (hr.mono (Nat.le_succ level))
        (hr'.mono (Nat.le_succ level)) (List.cons.inj h).2

section
variable (hf : Number.Distinct floats)
include hf

theorem headline_cancel {level : Nat} {rest rest' : List PrintedLine} (hs : s.Legible floats)
    (ht : t.Legible floats) (h : s.printed level ++ rest = t.printed level ++ rest') :
    s.bare = t.bare ∧ s.indented level ++ rest = t.indented level ++ rest' := by
  rw [printed_eq, printed_eq] at h
  obtain ⟨hline, hrest⟩ := List.cons.inj h
  exact ⟨bare_eq_of_headline hf hs ht (congrArg PrintedLine.content hline), hrest⟩

theorem function_told {n : α} {header : Header α} {body : List (Stmt α)}
    (hs : (function n header body).Legible floats) (hbody : ToldAll floats body) :
    (function n header body).Told floats := by
  intro t level rest rest' ht hr hr' h
  obtain ⟨hbare, h⟩ := headline_cancel hf hs ht h
  cases t with
  | function n' header' body' =>
    have hheader := (Stmt.function.inj hbare).2.1
    obtain ⟨hbody, hrest⟩ := hbody body' (level + 1) rest rest' ht.function.2 hr hr' h
    rw [map, map, hheader, hbody]
    exact ⟨rfl, hrest⟩
  | _ => cases hbare

theorem loop_told {n : α} {condition : Expr α} {body : List (Stmt α)}
    (hs : (loop n condition body).Legible floats) (hbody : ToldAll floats body) :
    (loop n condition body).Told floats := by
  intro t level rest rest' ht hr hr' h
  obtain ⟨hbare, h⟩ := headline_cancel hf hs ht h
  cases t with
  | loop n' condition' body' =>
    have hcondition := (Stmt.loop.inj hbare).2.1
    obtain ⟨hbody, hrest⟩ := hbody body' (level + 1) rest rest' ht.loop.2 hr hr' h
    rw [map, map, hcondition, hbody]
    exact ⟨rfl, hrest⟩
  | _ => cases hbare

theorem branch_told {n : α} {condition : Expr α} {thenBody elseBody : List (Stmt α)}
    (hs : (branch n condition thenBody elseBody).Legible floats) (hthen : ToldAll floats thenBody)
    (helse : ToldAll floats elseBody) :
    (branch n condition thenBody elseBody).Told floats := by
  intro t level rest rest' ht hr hr' h
  obtain ⟨hbare, h⟩ := headline_cancel hf hs ht h
  cases t with
  | branch n' condition' thenBody' elseBody' =>
    have hcondition := (Stmt.branch.inj hbare).2.1
    simp only [indented, List.cons_append, List.append_assoc] at h
    obtain ⟨hthen, h⟩ := hthen thenBody' (level + 2) _ _ ht.branch.2.1
      (outside_alternative hr elseBody) (outside_alternative hr' elseBody') (List.cons.inj h).2
    obtain ⟨helse, hrest⟩ := alternative_told helse ht.branch.2.2 hr hr' h
    rw [map, map, hcondition, hthen, helse]
    exact ⟨rfl, hrest⟩
  | _ => cases hbare

theorem line_told (hs : s.Legible floats) (hline : s.isLine = true) : s.Told floats := by
  intro t level rest rest' ht _ _ h
  obtain ⟨hbare, h⟩ := headline_cancel hf hs ht h
  have hline' : t.isLine = true := by rw [← isLine_bare, ← hbare, isLine_bare, hline]
  rw [indented_eq_nil hline, indented_eq_nil hline'] at h
  exact ⟨by rw [map_eq_bare hline, map_eq_bare hline', hbare], h⟩

end

mutual
/-- The induction is on the tree, for every level and whatever follows. -/
theorem told (hf : Number.Distinct floats) : (s : Stmt α) → s.Legible floats → s.Told floats
  | .function _ _ body, h => function_told hf h (toldAll hf body h.function.2)
  | .declare _ _, h => line_told hf h rfl
  | .branch _ _ thenBody elseBody, h =>
    branch_told hf h (toldAll hf thenBody h.branch.2.1) (toldAll hf elseBody h.branch.2.2)
  | .loop _ _ body, h => loop_told hf h (toldAll hf body h.loop.2)
  | .give _ _, h => line_told hf h rfl
  | .expr _, h => line_told hf h rfl

theorem toldAll (hf : Number.Distinct floats) :
    (ss : List (Stmt α)) → LegibleAll floats ss → ToldAll floats ss
  | [], _ => toldAll_nil
  | s :: ss, h =>
    toldAll_cons (told hf s (legibleAll_cons.mp h).1) (toldAll hf ss (legibleAll_cons.mp h).2)
end

end Stmt
end AlgoFrontEnd
