import AlgoFrontEnd.Grammar.Program
import AlgoFrontEnd.Proofs.Token.Names

/-! Functions of a parsed program have plain names. -/
namespace AlgoFrontEnd

mutual
/-- The headers of functions and declarations at any depth. -/
def Stmt.headers {α : Type} : Stmt α → List (Header α)
  | .function _ header body => header :: Stmt.headersAll body
  | .declare _ header => [header]
  | .branch _ _ thenBody elseBody => Stmt.headersAll thenBody ++ Stmt.headersAll elseBody
  | .loop _ _ body => Stmt.headersAll body
  | .give _ _ | .expr _ => []

def Stmt.headersAll {α : Type} : List (Stmt α) → List (Header α)
  | [] => []
  | s :: ss => s.headers ++ Stmt.headersAll ss
end

/-- All functions that statements define or declare have plain names. -/
def PlainHeaders (ss : List (Stmt Position)) : Prop :=
  ∀ h ∈ Stmt.headersAll ss, Plain h.name

theorem plainHeaders_cons {s : Stmt Position} {ss : List (Stmt Position)} :
    PlainHeaders (s :: ss) ↔ (∀ h ∈ s.headers, Plain h.name) ∧ PlainHeaders ss := by
  simp only [PlainHeaders, Stmt.headersAll, List.forall_mem_append]

theorem plainHeaders_append {xs ys : List (Stmt Position)} :
    PlainHeaders (xs ++ ys) ↔ PlainHeaders xs ∧ PlainHeaders ys := by
  induction xs with
  | nil => simp [PlainHeaders, Stmt.headersAll]
  | cons s ss ih => rw [List.cons_append, plainHeaders_cons, plainHeaders_cons, ih, and_assoc]

theorem plainHeaders_reverse {ss : List (Stmt Position)} :
    PlainHeaders ss.reverse ↔ PlainHeaders ss := by
  induction ss with
  | nil => simp
  | cons s ss ih =>
    rw [List.reverse_cons, plainHeaders_append, ih, plainHeaders_cons, plainHeaders_cons]
    simp [PlainHeaders, Stmt.headersAll, and_comm]

namespace Grammar
open Token (Form)

theorem plain_header {stop : Position} {tokens : List Token} {h : Header Position}
    (ht : ∀ t ∈ tokens, t.form.Plain) (hh : header stop tokens = .ok h) : Plain h.name := by
  unfold header at hh
  split at hh
  · rename_i text position rest
    simp only [bind_eq_ok] at hh
    obtain ⟨r₁, -, hh⟩ := hh
    split at hh <;> simp only [bind_eq_ok, pure_eq_ok] at hh
    all_goals
      obtain ⟨⟨params, r₂⟩, -, r₃, -, ⟨result, r₄⟩, -, -, -, rfl⟩ := hh
      exact ht _ (List.mem_cons_self ..)
  · exact absurd hh fault_ne_ok

def Block.PlainHeaders : Block → Prop
  | .function _ header => Plain header.name
  | .elsePart _ _ thenBody _ => AlgoFrontEnd.PlainHeaders thenBody
  | _ => True

/-- The statements read so far, and those of the open blocks. -/
def Reading.PlainHeaders (r : Reading) : Prop :=
  AlgoFrontEnd.PlainHeaders r.body ∧
    ∀ b ∈ r.enclosing, Block.PlainHeaders b.1 ∧ AlgoFrontEnd.PlainHeaders b.2

theorem plainHeaders_complete {body : List (Stmt Position)} {b : Block} (hb : b.PlainHeaders)
    (hs : AlgoFrontEnd.PlainHeaders body) : ∀ h ∈ (b.complete body).headers, Plain h.name := by
  cases b with
  | function note header => exact List.forall_mem_cons.mpr ⟨hb, hs⟩
  | loop note condition => exact hs
  | thenPart note condition chained =>
    exact List.forall_mem_append.mpr ⟨hs, by simp [Stmt.headersAll]⟩
  | elsePart note condition thenBody chained => exact List.forall_mem_append.mpr ⟨hb, hs⟩

theorem plainHeaders_close {body : List (Stmt Position)}
    {enclosing : List (Block × List (Stmt Position))} {r : Reading}
    (hr : Reading.PlainHeaders ⟨body, enclosing⟩)
    (h : Reading.close body enclosing = some r) : r.PlainHeaders := by
  induction enclosing generalizing body with
  | nil => cases h
  | cons b outer ih =>
    obtain ⟨block, before⟩ := b
    obtain ⟨hs, he⟩ := hr
    obtain ⟨⟨hb, hbefore⟩, ho⟩ := List.forall_mem_cons.mp he
    have hc := plainHeaders_cons.mpr
      ⟨plainHeaders_complete hb (plainHeaders_reverse.mpr hs), hbefore⟩
    rw [Reading.close] at h
    split at h
    · exact ih ⟨hc, ho⟩ h
    · cases h
      exact ⟨hc, ho⟩

theorem plainHeaders_turn {r r' : Reading} (hr : r.PlainHeaders) (h : r.turn = some r') :
    r'.PlainHeaders := by
  unfold Reading.turn at h
  split at h
  · rename_i n condition chained before outer he
    cases h
    obtain ⟨hs, hb⟩ := hr
    rw [he] at hb
    obtain ⟨⟨-, hbefore⟩, ho⟩ := List.forall_mem_cons.mp hb
    refine ⟨by simp [AlgoFrontEnd.PlainHeaders, Stmt.headersAll], ?_⟩
    exact List.forall_mem_cons.mpr ⟨⟨plainHeaders_reverse.mpr hs, hbefore⟩, ho⟩
  · cases h

theorem plainHeaders_add {r : Reading} (hr : r.PlainHeaders) {s : Stmt Position}
    (hs : ∀ h ∈ s.headers, Plain h.name) : (r.add s).PlainHeaders :=
  ⟨plainHeaders_cons.mpr ⟨hs, hr.1⟩, hr.2⟩

theorem plainHeaders_enter {r : Reading} (hr : r.PlainHeaders) {b : Block}
    (hb : b.PlainHeaders) : (r.enter b).PlainHeaders :=
  ⟨by simp [Reading.enter, AlgoFrontEnd.PlainHeaders, Stmt.headersAll],
    List.forall_mem_cons.mpr ⟨⟨hb, hr.1⟩, hr.2⟩⟩

theorem plainHeaders_line {stop : Position} {r r' : Reading} {tokens : List Token}
    (hr : r.PlainHeaders) (ht : ∀ t ∈ tokens, t.form.Plain)
    (h : r.line stop tokens = .ok r') : r'.PlainHeaders := by
  induction tokens generalizing r with
  | nil =>
    cases h
    exact hr
  | cons t rest ih =>
    have hrest := fun t ht' => ht t (List.mem_cons_of_mem _ ht')
    unfold Reading.line at h
    split at h
    case h_1 =>
      simp only [bind_eq_ok, pure_eq_ok] at h
      obtain ⟨e, -, rfl⟩ := h
      exact plainHeaders_enter hr trivial
    case h_2 =>
      simp only [bind_eq_ok, pure_eq_ok] at h
      obtain ⟨e, -, rfl⟩ := h
      exact plainHeaders_enter hr trivial
    case h_3 =>
      simp only [bind_eq_ok, pure_eq_ok] at h
      obtain ⟨e, he, rfl⟩ := h
      exact plainHeaders_enter hr (plain_header hrest he)
    case h_4 =>
      split at h
      · simp only [bind_eq_ok, pure_eq_ok] at h
        obtain ⟨e, he, rfl⟩ := h
        have := plain_header (fun t ht' => hrest t (List.mem_cons_of_mem _ ht')) he
        exact plainHeaders_add hr (List.forall_mem_singleton.mpr this)
      · exact absurd h fault_ne_ok
    case h_5 =>
      split at h
      · cases h
        exact plainHeaders_add hr (by simp [Stmt.headers])
      · simp only [bind_eq_ok, pure_eq_ok] at h
        obtain ⟨e, -, rfl⟩ := h
        exact plainHeaders_add hr (by simp [Stmt.headers])
    case h_6 =>
      split at h
      · exact ih (plainHeaders_turn hr ‹_›) hrest h
      · exact absurd h fault_ne_ok
    case h_7 =>
      split at h
      · rename_i r₁ hc
        simp only [bind_eq_ok, pure_eq_ok] at h
        obtain ⟨-, -, rfl⟩ := h
        exact plainHeaders_close hr hc
      · exact absurd h fault_ne_ok
    case h_8 => exact absurd h fault_ne_ok
    case h_9 =>
      simp only [bind_eq_ok, pure_eq_ok] at h
      obtain ⟨e, -, rfl⟩ := h
      exact plainHeaders_add hr (by simp [Stmt.headers])

theorem plainHeaders_lines {r r' : Reading} {ls : List TokenLine} (hr : r.PlainHeaders)
    (ht : ∀ l ∈ ls, ∀ t ∈ l.tokens, t.form.Plain) (h : r.lines ls = .ok r') :
    r'.PlainHeaders := by
  induction ls generalizing r with
  | nil =>
    cases h
    exact hr
  | cons l ls ih =>
    simp only [Reading.lines, bind_eq_ok] at h
    obtain ⟨r₁, hl, hls⟩ := h
    obtain ⟨hfirst, hrest⟩ := List.forall_mem_cons.mp ht
    exact ih (plainHeaders_line hr hfirst hl) hrest hls

theorem mem_of_mem_ofTokens {tokens : List Token} :
    ∀ l ∈ TokenLine.ofTokens tokens, ∀ t ∈ l.tokens, t ∈ tokens := by
  induction tokens with
  | nil => simp [TokenLine.ofTokens]
  | cons t rest ih =>
    intro l hl u hu
    unfold TokenLine.ofTokens at hl
    split at hl
    · cases ‹_ = ([] : List Token)›
    · rename_i heq
      cases heq
      rcases List.mem_cons.mp hl with rfl | hl
      · cases hu
      · exact List.mem_cons_of_mem _ (ih l hl u hu)
    · rename_i heq
      cases heq
      split at hl
      · rw [List.mem_singleton.mp hl] at hu
        rw [List.mem_singleton.mp hu]
        exact List.mem_cons_self ..
      · rename_i line lines hlines
        rw [hlines] at ih
        obtain ⟨hfirst, hrest⟩ := List.forall_mem_cons.mp ih
        rcases List.mem_cons.mp hl with rfl | hl
        · rcases List.mem_cons.mp hu with rfl | hu
          · exact List.mem_cons_self ..
          · exact List.mem_cons_of_mem _ (hfirst u hu)
        · exact List.mem_cons_of_mem _ (hrest l hl u hu)

/-- Source text gives programs whose functions have plain names. -/
theorem plainHeaders_program {lines : List String} {tokens : List Token} {p : Program Position}
    (ht : Token.ofLines lines = .ok tokens) (hp : program tokens = .ok p) : PlainHeaders p := by
  simp only [program, bind_eq_ok] at hp
  obtain ⟨r, hr, hp⟩ := hp
  have hstart : Reading.start.PlainHeaders :=
    ⟨by simp [Reading.start, AlgoFrontEnd.PlainHeaders, Stmt.headersAll], by simp [Reading.start]⟩
  have h := plainHeaders_lines hstart
    (fun l hl t hm => Token.plain_of_ofLines ht t (mem_of_mem_ofTokens l hl t hm)) hr
  split at hp
  · cases hp
    exact plainHeaders_reverse.mpr h.1
  · exact absurd hp fault_ne_ok

end Grammar
end AlgoFrontEnd
