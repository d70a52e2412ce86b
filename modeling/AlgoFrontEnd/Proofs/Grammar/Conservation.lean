import AlgoFrontEnd.Proofs.Grammar.Phrases
import Mathlib.Algebra.Order.Group.Multiset
import Mathlib.Tactic.Abel

/-! What the tokens of expressions and headers say, against what their trees say. Main statements:
apart from brackets, commas and colons, both say the same and equally often. -/
namespace AlgoFrontEnd
open Token (Form)

def Token.Form.isMark : Form → Bool
  | .mark _ => true
  | _ => false

/-- A token that a tree accounts for, which those that only give shape are not. -/
def Token.Form.isContent : Form → Bool
  | .mark _ | .endLine | .keyword _ => false
  | _ => true

/-- What a declared type says. -/
def typeForms : Option TypeRef → Multiset Form
  | none => 0
  | some type => {Grammar.typeForm type}

/-- An element says its array and its offset. -/
def Place.forms {α : Type} : Place α → Multiset Form
  | .whole _ name type => .name name ::ₘ typeForms type
  | .element _ array offset => {.name array, .int offset}

mutual
/-- What an expression says: its literals, places, calls, operators and declared types. -/
def Expr.forms {α : Type} : Expr α → Multiset Form
  | .int _ value => {.int value}
  | .float _ value => {.float value}
  | .bool _ value => {.bool value}
  | .string _ value => {.string value}
  | .array _ elements => Expr.formsAll elements
  | .place p => p.forms
  | .call _ function arguments => .call function ::ₘ Expr.formsAll arguments
  | .binary _ op left right => .connective (.operate op) ::ₘ (left.forms + right.forms)
  | .sign _ s operand => .sign s ::ₘ operand.forms
  | .assign _ target value => .connective .assign ::ₘ (target.forms + value.forms)

def Expr.formsAll {α : Type} : List (Expr α) → Multiset Form
  | [] => 0
  | e :: es => e.forms + Expr.formsAll es
end

theorem Expr.formsAll_append {α : Type} (xs ys : List (Expr α)) :
    Expr.formsAll (xs ++ ys) = Expr.formsAll xs + Expr.formsAll ys := by
  induction xs with
  | nil => simp [Expr.formsAll]
  | cons e es ih => rw [List.cons_append, Expr.formsAll, Expr.formsAll, ih, add_assoc]

theorem content_typeForms (a : Option TypeRef) : ∀ f ∈ typeForms a, f.isContent = true := by
  cases a with
  | none => simp [typeForms]
  | some type =>
    simp only [typeForms, Multiset.mem_singleton, forall_eq, Grammar.typeForm]
    split <;> rfl

theorem Place.content {α : Type} (p : Place α) : ∀ f ∈ p.forms, f.isContent = true := by
  cases p with
  | whole _ name type =>
    simp only [Place.forms, Multiset.mem_cons, forall_eq_or_imp]
    exact ⟨rfl, content_typeForms type⟩
  | element _ array offset =>
    simp [Place.forms, Token.Form.isContent]

mutual
theorem Expr.content {α : Type} : (e : Expr α) → ∀ f ∈ e.forms, f.isContent = true
  | .int _ _ | .float _ _ | .bool _ _ | .string _ _ => by
    simp [Expr.forms, Token.Form.isContent]
  | .array _ elements => Expr.contentAll elements
  | .place p => p.content
  | .call _ function arguments => by
    simp only [Expr.forms, Multiset.mem_cons, forall_eq_or_imp]
    exact ⟨rfl, Expr.contentAll arguments⟩
  | .binary _ op left right => by
    simp only [Expr.forms, Multiset.mem_cons, Multiset.mem_add, or_imp, forall_and, forall_eq]
    exact ⟨rfl, left.content, right.content⟩
  | .sign _ s operand => by
    simp only [Expr.forms, Multiset.mem_cons, forall_eq_or_imp]
    exact ⟨rfl, operand.content⟩
  | .assign _ target value => by
    simp only [Expr.forms, Multiset.mem_cons, Multiset.mem_add, or_imp, forall_and, forall_eq]
    exact ⟨rfl, target.content, value.content⟩

theorem Expr.contentAll {α : Type} :
    (es : List (Expr α)) → ∀ f ∈ Expr.formsAll es, f.isContent = true
  | [] => by simp [Expr.formsAll]
  | e :: es => by
    simp only [Expr.formsAll, Multiset.mem_add, or_imp, forall_and]
    exact ⟨e.content, Expr.contentAll es⟩
end

def Parameter.forms {α : Type} (p : Parameter α) : Multiset Form :=
  .name p.name ::ₘ typeForms p.type

def Header.forms {α : Type} (h : Header α) : Multiset Form :=
  .name h.name ::ₘ ((h.parameters.map Parameter.forms).sum + typeForms h.result)

theorem Header.content {α : Type} (h : Header α) : ∀ f ∈ h.forms, f.isContent = true := by
  have hps (ps : List (Parameter α)) :
      ∀ f ∈ (ps.map Parameter.forms).sum, f.isContent = true := by
    induction ps with
    | nil => simp
    | cons p ps ih =>
      simp only [List.map_cons, List.sum_cons, Multiset.mem_add, Parameter.forms,
        Multiset.mem_cons, or_imp, forall_and, forall_eq]
      exact ⟨⟨rfl, content_typeForms p.type⟩, ih⟩
  simp only [Header.forms, Multiset.mem_cons, Multiset.mem_add, or_imp, forall_and, forall_eq]
  exact ⟨rfl, hps h.parameters, content_typeForms h.result⟩

namespace Grammar

/-- What tokens say. Marks say nothing by themselves. -/
def said (ts : List Token) : Multiset Form := ((ts.map (·.form)).filter (!·.isMark) : List Form)

@[simp] theorem said_nil : said [] = 0 := rfl

theorem said_mark (m : Mark) (p : Position) (ts : List Token) :
    said (⟨.mark m, p⟩ :: ts) = said ts := rfl

theorem said_cons {t : Token} (h : t.form.isMark = false) (ts : List Token) :
    said (t :: ts) = t.form ::ₘ said ts := by
  simp [said, h]

theorem said_append (ts us : List Token) : said (ts ++ us) = said ts + said us := by
  simp [said]

theorem mem_said {t : Token} {ts : List Token} (h : t ∈ ts) (hm : t.form.isMark = false) :
    t.form ∈ said ts := by
  simp only [said, Multiset.mem_coe, List.mem_filter, List.mem_map]
  exact ⟨⟨t, h, rfl⟩, by simp [hm]⟩

/-- Tokens that say only what a tree can account for shape no statement. -/
theorem inner_of_said {ts : List Token} (h : ∀ f ∈ said ts, f.isContent = true) :
    ∀ t ∈ ts, Inner t := by
  intro t ht
  obtain ⟨form, p⟩ := t
  cases form with
  | endLine => exact absurd (h _ (mem_said ht rfl)) (by simp [Form.isContent])
  | keyword k => exact absurd (h _ (mem_said ht rfl)) (by simp [Form.isContent])
  | _ => simp [Inner]

/-! ### Stacks -/

def Pending.forms : Pending → Multiset Form
  | .connective c _ => {.connective c}
  | .sign s _ => {.sign s}
  | .paren _ => 0
  | .call function _ => {.call function}

def Pending.formsAll : List Pending → Multiset Form
  | [] => 0
  | top :: pending => top.forms + Pending.formsAll pending

def Item.formsAll : List Item → Multiset Form
  | [] => 0
  | .value e :: rest => e.forms + Item.formsAll rest
  | .callMark :: rest => Item.formsAll rest

/-- What has been read and not lost: the values, and the operators and calls that wait. -/
def Yard.forms (y : Yard) : Multiset Form := Item.formsAll y.output + Pending.formsAll y.pending

/-- An operator that is applied moves into the value that it makes. -/
theorem formsAll_reduce {output output' : List Item} {top : Pending} {p : Nat}
    (ht : top.precedence? = some p) (h : Yard.reduce output top = .ok output') :
    Item.formsAll output' = top.forms + Item.formsAll output := by
  cases top with
  | paren _ => cases ht
  | call _ _ => cases ht
  | sign s position =>
    simp only [Yard.reduce] at h
    split at h
    · cases h
      simp [Item.formsAll, Expr.forms, Pending.forms]
    · exact absurd h fault_ne_ok
  | connective c position =>
    simp only [Yard.reduce] at h
    split at h
    · split at h
      · cases h
        simp only [Item.formsAll, Expr.forms, Pending.forms, Multiset.singleton_add,
          Multiset.cons_add]
        congr 1
        abel
      · cases h
        simp only [Item.formsAll, Expr.forms, Pending.forms, Multiset.singleton_add,
          Multiset.cons_add]
        congr 1
        abel
      · exact absurd h fault_ne_ok
    · exact absurd h fault_ne_ok

theorem forms_reduceWhile {yields : Nat → Bool} {output : List Item} {pending : List Pending}
    {z : Yard} (h : Yard.reduceWhile yields output pending = .ok z) :
    z.forms = Item.formsAll output + Pending.formsAll pending := by
  induction pending generalizing output with
  | nil =>
    cases h
    rfl
  | cons top pending ih =>
    rw [Yard.reduceWhile] at h
    split at h
    · rename_i p hp
      split at h
      · obtain ⟨output', hr, h⟩ := bind_eq_ok.mp h
        rw [ih h, formsAll_reduce hp hr, Pending.formsAll]
        abel
      · cases h
        rfl
    · cases h
      rfl

theorem forms_settle {y z : Yard} (h : y.settle = .ok z) : z.forms = y.forms :=
  forms_reduceWhile h

theorem forms_pushOperator {y z : Yard} {operator : Pending}
    (h : y.pushOperator operator = .ok z) : z.forms = operator.forms + y.forms := by
  obtain ⟨y₁, hr, h⟩ := bind_eq_ok.mp h
  cases h
  have := forms_reduceWhile hr
  simp only [Yard.forms, Pending.formsAll] at this ⊢
  rw [← this]
  abel

theorem formsAll_arguments (output : List Item) :
    Expr.formsAll (Yard.arguments output).1 + Item.formsAll (Yard.arguments output).2 =
      Item.formsAll output := by
  induction output with
  | nil => rfl
  | cons i output ih =>
    cases i with
    | callMark => simp [Yard.arguments, Item.formsAll, Expr.formsAll]
    | value e =>
      simp only [Yard.arguments, Item.formsAll, Expr.formsAll_append, Expr.formsAll, ← ih]
      abel

theorem forms_close {y z : Yard} {t : Token} (h : y.close t = .ok z) : z.forms = y.forms := by
  obtain ⟨⟨output, pending⟩, hs, h⟩ := bind_eq_ok.mp h
  rw [← forms_settle hs]
  simp only at h
  split at h
  · cases h
    simp only [Yard.forms, Item.formsAll, Pending.formsAll, Pending.forms, Expr.forms,
      ← formsAll_arguments output, ← Multiset.singleton_add]
    abel
  · cases h
    simp [Yard.forms, Pending.formsAll, Pending.forms]
  · exact absurd h fault_ne_ok

theorem forms_separate {y z : Yard} {t : Token} (h : y.separate t = .ok z) :
    z.forms = y.forms := by
  obtain ⟨⟨output, pending⟩, hs, h⟩ := bind_eq_ok.mp h
  rw [← forms_settle hs]
  simp only at h
  split at h
  · cases h
    rfl
  · exact absurd h fault_ne_ok

theorem forms_push (y : Yard) (e : Expr Position) : (y.push e).forms = e.forms + y.forms := by
  simp only [Yard.push, Yard.forms, Item.formsAll, add_assoc]

theorem forms_take {y z : Yard} {t : Token} (h : y.take t = .ok z) :
    z.forms = said [t] + y.forms := by
  obtain ⟨form, p⟩ := t
  cases form with
  | int | float | bool | string =>
    cases h
    rw [forms_push]
    rfl
  | call function =>
    cases h
    show Item.formsAll y.output + ({.call function} + Pending.formsAll y.pending) =
      {.call function} + (Item.formsAll y.output + Pending.formsAll y.pending)
    abel
  | connective c =>
    have h : y.pushOperator (.connective c p) = .ok z := h
    exact forms_pushOperator h
  | sign s =>
    have h : y.pushOperator (.sign s p) = .ok z := h
    exact forms_pushOperator h
  | mark m =>
    rw [said_mark, said_nil, zero_add]
    cases m with
    | openParen =>
      cases h
      simp [Yard.forms, Pending.formsAll, Pending.forms]
    | closeParen => exact forms_close h
    | comma => exact forms_separate h
    | openBracket | closeBracket | colon => exact absurd h fault_ne_ok
  | _ => exact absurd h fault_ne_ok

/-- An index is said by the element, and elements by the array. -/
theorem forms_takeBrackets (y : Yard) (opener : Position) (behindName : Bool)
    (elements : List (Expr Position)) :
    (y.takeBrackets opener behindName elements).forms = Expr.formsAll elements + y.forms := by
  obtain ⟨output, pending⟩ := y
  unfold Yard.takeBrackets
  split
  · rename_i ho
    simp only at ho
    subst ho
    simp only [Yard.forms, Item.formsAll, Expr.forms, Expr.formsAll, Place.forms, typeForms,
      Multiset.insert_eq_cons, ← Multiset.singleton_add]
    abel
  · rw [forms_push, Expr.forms]

theorem forms_finish {y : Yard} {start : Position} {e : Expr Position}
    (h : y.finish start = .ok e) : e.forms = y.forms := by
  obtain ⟨⟨output, pending⟩, hs, h⟩ := bind_eq_ok.mp h
  rw [← forms_settle hs]
  simp only at h
  split at h
  · exact absurd h fault_ne_ok
  · cases h
    simp [Yard.forms, Item.formsAll, Pending.formsAll]
  · exact absurd h fault_ne_ok

/-! ### Lines -/

theorem said_typing {ts after : List Token} {a : Option TypeRef}
    (h : typing? ts = .ok (a, after)) : said ts = typeForms a + said after := by
  unfold typing? at h
  split at h
  · cases h
    rfl
  · cases h
    rfl
  · exact absurd h fault_ne_ok
  · cases h
    simp [typeForms]

theorem said_closing {depth : Nat} {ts inside after : List Token}
    (h : closing? depth ts = some (inside, after)) : said ts = said inside + said after := by
  obtain ⟨⟨form, p⟩, rfl, hc⟩ := closing?_eq_some h
  obtain rfl : form = .mark .closeBracket := form_of_closing? hc
  rw [said_append, said_mark]

theorem said_splitParts (depth : Int) (ts : List Token) :
    said (splitParts depth ts).flatten = said ts := by
  induction ts generalizing depth with
  | nil => rfl
  | cons t ts ih =>
    rw [splitParts]
    split
    · rename_i hc
      obtain ⟨form, p⟩ := t
      obtain rfl : form = .mark .comma := by
        simp only [Bool.and_eq_true, decide_eq_true_eq] at hc
        exact hc.1
      exact ih depth
    · have := ih (depth + depthChange t.form)
      split
      · exact absurd ‹_› (splitParts_ne_nil _ _)
      · rename_i hp
        rw [hp] at this
        rw [List.flatten_cons, List.cons_append, ← List.singleton_append, said_append,
          ← List.flatten_cons, this, ← said_append, List.singleton_append]

theorem said_elementParts {opener : Position} {inside : List Token}
    {parts : List (List Token)} (h : elementParts opener inside = .ok parts) :
    said parts.flatten = said inside := by
  unfold elementParts at h
  split at h
  · cases h
    rename_i he
    rw [List.isEmpty_iff.mp he]
    rfl
  · dsimp only at h
    split at h
    · exact absurd h fault_ne_ok
    · cases h
      exact said_splitParts 0 inside

mutual
theorem forms_run {b : Bool} {y z : Yard} : ∀ {ts : List Token}, run b y ts = .ok z →
    z.forms = said ts + y.forms
  | [], h => by
    rw [run_nil] at h
    cases h
    rw [said_nil, zero_add]
  | ⟨form, p⟩ :: rest, h => by
    by_cases hn : ∃ text, form = .name text
    · obtain ⟨text, rfl⟩ := hn
      by_cases hp : y.pending = []
      · obtain ⟨a, after, ht, h⟩ := typing?_of_run hp h
        have hlen := length_of_typing? ht
        rw [forms_run h, forms_push, said_cons rfl, said_typing ht]
        simp only [Expr.forms, Place.forms, ← Multiset.singleton_add]
        abel
      · rw [run_name_pending b hp] at h
        rw [forms_run h, forms_push, said_cons rfl]
        simp only [Expr.forms, Place.forms, typeForms, ← Multiset.singleton_add]
        abel
    · by_cases ho : form = .mark .openBracket
      · subst ho
        obtain ⟨inside, after, parts, elements, hc, hp, he, h⟩ := brackets_of_run h
        have hlen := length_of_closing? hc
        have hweight := weight_of_elementParts hp
        rw [forms_run h, forms_takeBrackets, formsAll_runParts he, said_mark, said_closing hc,
          said_elementParts hp]
        abel
      · obtain ⟨y', hy, h⟩ := take_of_run (by simpa using hn) ho h
        show z.forms = said ([⟨form, p⟩] ++ rest) + y.forms
        rw [forms_run h, forms_take hy, said_append]
        abel
termination_by ts => ts.length

theorem formsAll_runParts {opener : Position} : ∀ {parts : List (List Token)}
    {es : List (Expr Position)}, runParts opener parts = .ok es →
      Expr.formsAll es = said parts.flatten
  | [], es, h => by
    rw [runParts] at h
    cases h
    rfl
  | part :: parts, es, h => by
    rw [runParts] at h
    obtain ⟨y, hy, h⟩ := bind_eq_ok.mp h
    obtain ⟨e, he, h⟩ := bind_eq_ok.mp h
    obtain ⟨es, hes, h⟩ := bind_eq_ok.mp h
    cases h
    rw [Expr.formsAll, forms_finish he, forms_run hy, formsAll_runParts hes, List.flatten_cons,
      said_append]
    simp [Yard.forms, Yard.empty, Item.formsAll, Pending.formsAll]
termination_by parts => weight parts
decreasing_by
  · simp only [weight]; omega
  · simp only [weight]; omega
end

/-- A line says what its expression says. -/
theorem said_expression {stop : Position} {ts : List Token} {e : Expr Position}
    (h : expression stop ts = .ok e) : said ts = e.forms := by
  cases ts with
  | nil => exact absurd h fault_ne_ok
  | cons t ts =>
    obtain ⟨y, hy, h⟩ := bind_eq_ok.mp h
    rw [forms_finish h, forms_run hy]
    simp [Yard.forms, Yard.empty, Item.formsAll, Pending.formsAll]

/-- No word that shapes a statement stands in an expression. -/
theorem inner_of_expression {stop : Position} {ts : List Token} {e : Expr Position}
    (h : expression stop ts = .ok e) : ∀ t ∈ ts, Inner t :=
  inner_of_said (said_expression h ▸ e.content)

/-! ### Headers -/

theorem said_expectMark {stop : Position} {m : Mark} {ts after : List Token}
    (h : expectMark stop m ts = .ok after) : said ts = said after := by
  unfold expectMark at h
  split at h
  · rename_i t rest
    obtain ⟨form, p⟩ := t
    split at h
    · rename_i hf
      cases h
      obtain rfl : form = .mark m := hf
      rfl
    · exact absurd h fault_ne_ok
  · exact absurd h fault_ne_ok

theorem said_resultType {stop : Position} {ts after : List Token} {a : Option TypeRef}
    (h : resultType? stop ts = .ok (a, after)) : said ts = typeForms a + said after := by
  unfold resultType? at h
  split at h
  · split at h
    · cases h
      rfl
    · cases h
      rfl
    · exact absurd h fault_ne_ok
  · cases h
    simp [typeForms]

theorem said_parameters {stop : Position} {ts after : List Token}
    {ps : List (Parameter Position)} (h : parameters stop ts = .ok (ps, after)) :
    said ts = (ps.map Parameter.forms).sum + said after := by
  fun_induction parameters stop ts generalizing ps after with
  | case1 text p rest e he => cases h
  | case2 text p rest type q behind ht ih =>
    obtain ⟨⟨more, last⟩, hm, h⟩ := bind_eq_ok.mp h
    cases h
    rw [said_cons rfl, said_resultType ht, said_mark, ih hm, List.map_cons, List.sum_cons,
      Parameter.forms, ← Multiset.singleton_add, ← Multiset.singleton_add]
    abel
  | case3 text p rest type behind _ ht =>
    cases h
    rw [said_cons rfl, said_resultType ht]
    simp [Parameter.forms]
  | case4 ts hn => exact absurd h fault_ne_ok

/-- A header says its name, its parameters and its result. -/
theorem said_header {stop : Position} {ts : List Token} {h : Header Position}
    (hh : header stop ts = .ok h) : said ts = h.forms := by
  have hend {ts : List Token} (h : expectEnd ts = .ok ()) : ts = [] := by
    cases ts with
    | nil => rfl
    | cons t ts => exact absurd h fault_ne_ok
  unfold header at hh
  split at hh
  · rename_i text p rest
    obtain ⟨r₁, h₁, hh⟩ := bind_eq_ok.mp hh
    rw [said_cons rfl, said_expectMark h₁]
    split at hh <;> simp only [bind_eq_ok, pure_eq_ok] at hh
    · obtain ⟨_, rfl, r₃, h₃, ⟨result, r₄⟩, h₄, _, h₅, rfl⟩ := hh
      obtain rfl : r₄ = [] := hend h₅
      rw [said_expectMark h₃, said_resultType h₄]
      simp [Header.forms]
    · obtain ⟨⟨params, r₂⟩, h₂, r₃, h₃, ⟨result, r₄⟩, h₄, _, h₅, rfl⟩ := hh
      obtain rfl : r₄ = [] := hend h₅
      rw [said_parameters h₂, said_expectMark h₃, said_resultType h₄]
      simp [Header.forms]
  · exact absurd hh fault_ne_ok

/-- No word that shapes a statement stands in a header. -/
theorem inner_of_header {stop : Position} {ts : List Token} {h : Header Position}
    (hh : header stop ts = .ok h) : ∀ t ∈ ts, Inner t :=
  inner_of_said (said_header hh ▸ h.content)

end Grammar
end AlgoFrontEnd
