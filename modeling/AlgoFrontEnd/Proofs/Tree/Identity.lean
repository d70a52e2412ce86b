import AlgoFrontEnd.Proofs.Tree.Statements
import Mathlib.Data.Fin.VecNotation

/-! Programs recovered from their printed texts. Main statement: programs of two source texts are
printed alike exactly if they differ in their positions only. -/
namespace AlgoFrontEnd
open Token (Form)

/-! ### Line feeds -/

section
variable {α : Type} {floats : Set Float}

theorem newline_notMem_of_forall {p : Char → Bool} {cs : List Char}
    (h : ∀ c ∈ cs, p c = true) (hp : p '\n' = false) : '\n' ∉ cs := by
  intro hm
  rw [h _ hm] at hp
  cases hp

theorem newline_notMem_commas {texts : List (List Char)} (h : ∀ cs ∈ texts, '\n' ∉ cs) :
    '\n' ∉ [',', ' '].intercalate texts := by
  intro hm
  rcases mem_intercalate hm with hm | ⟨cs, hcs, hm⟩
  · exact absurd hm (by decide)
  · exact h cs hcs hm

theorem newline_notMem_typing {type : Option TypeRef}
    (h : ∀ f ∈ typeForms type, f.Legible floats) : '\n' ∉ typing type := by
  cases type with
  | none => exact List.not_mem_nil
  | some type =>
    have hname := newline_notMem_of_forall (identifier_of_typeForms h).isNameChar rfl
    cases hb : type.isArray <;> simp [typing, toList_text_typeRef, brackets, hname, hb]

theorem Header.newline_notMem {h : Header α} (hl : h.Legible floats) : '\n' ∉ h.text.toList := by
  have hname := newline_notMem_of_forall hl.ordinary.identifier.isNameChar rfl
  have hparameters : '\n' ∉ [',', ' '].intercalate
      (h.parameters.map fun p => (annotated p.name p.type).toList) := by
    refine newline_notMem_commas (List.forall_mem_map.mpr fun p hp => ?_)
    have hp := hl.parameters p hp
    have hname := newline_notMem_of_forall hp.ordinary.identifier.isNameChar rfl
    have htype := newline_notMem_typing fun f hf => hp f (Multiset.mem_cons_of_mem hf)
    simp [toList_annotated, hname, htype]
  simp [toList_text, hname, hparameters, newline_notMem_typing hl.result]

theorem Place.newline_notMem {p : Place α} (h : p.Legible floats) : '\n' ∉ p.text.toList := by
  have hname := newline_notMem_of_forall h.ordinary.identifier.isNameChar rfl
  have hbehind : '\n' ∉ p.behindName := by
    cases p with
    | whole n name type =>
      exact newline_notMem_typing fun f hf => h f (Multiset.mem_cons_of_mem hf)
    | element n array offset =>
      have h₀ : 0 ≤ offset := (h (.int offset) (by simp [Place.forms])).1
      have hdigits := newline_notMem_of_forall (Token.Lexes.isDigit_of_mem_toString h₀) rfl
      simpa [behindName] using hdigits
  simp [toList_text, hname, hbehind]

namespace Expr

mutual
/-- Nothing legible breaks the line it stands in. -/
theorem newline_notMem (hf : Number.Distinct floats) :
    (e : Expr α) → e.Legible floats → '\n' ∉ e.text.toList
  | .int n value, h =>
    newline_notMem_of_forall (isNumberChar_of_lead (e := .int n value) hf h rfl) rfl
  | .float n x, h =>
    newline_notMem_of_forall (isNumberChar_of_lead (e := .float n x) hf h rfl) rfl
  | .bool n b, _ => by
    rw [toList_text_bool]
    cases b <;> decide
  | .string _ value, h => by simp [toList_text_string, h.string.2]
  | .array _ es, h => by
    have hes : '\n' ∉ joined es := newline_notMem_commas (newline_notMem_texts hf es h.elements)
    simp [toList_text_array, hes]
  | .place p, h => by
    rw [text]
    exact Place.newline_notMem h
  | .call _ function es, h => by
    have hname := newline_notMem_of_forall h.function.identifier.isNameChar rfl
    have hes : '\n' ∉ joined es := newline_notMem_commas (newline_notMem_texts hf es h.arguments)
    simp [toList_text_call, hname, hes]
  | .binary _ op left right, h => by
    have hop : '\n' ∉ op.spelling.toList := by cases op <;> decide
    simp [toList_text_binary, hop, newline_notMem hf left h.binary.1,
      newline_notMem hf right h.binary.2]
  | .sign _ s operand, h => by
    have hs : '\n' ∉ s.spelling.toList := by cases s <;> decide
    simp [toList_text_sign, hs, newline_notMem hf operand h.sign]
  | .assign _ target value, h => by
    have hop : '\n' ∉ Connective.assign.spelling.toList := by decide
    simp [toList_text_assign, hop, Place.newline_notMem h.assign.1,
      newline_notMem hf value h.assign.2]

theorem newline_notMem_texts (hf : Number.Distinct floats) : (es : List (Expr α)) →
    (∀ e ∈ es, e.Legible floats) → ∀ cs ∈ es.map (·.text.toList), '\n' ∉ cs
  | [], _ => List.forall_mem_nil _
  | e :: es, h => List.forall_mem_cons.mpr
    ⟨newline_notMem hf e (List.forall_mem_cons.mp h).1,
      newline_notMem_texts hf es (List.forall_mem_cons.mp h).2⟩
end

end Expr
end

/-! ### Lines -/

/-- What a line says is not empty, begins with no blank and goes no further than the line. -/
structure PrintedLine.Tidy (l : PrintedLine) : Prop where
  begins : ∃ c more, l.content.toList = c :: more ∧ c ≠ ' '
  newline_notMem : '\n' ∉ l.content.toList

namespace PrintedLine

theorem toList_text (l : PrintedLine) :
    l.text.toList = List.replicate (2 * l.level) ' ' ++ l.content.toList := by
  simp [text]

theorem Tidy.word {level : Nat} {word : String}
    (hb : ∃ c more, word.toList = c :: more ∧ c ≠ ' ') (hn : '\n' ∉ word.toList) :
    Tidy ⟨level, word⟩ :=
  ⟨hb, hn⟩

theorem Tidy.text_ne_nil {l : PrintedLine} (h : l.Tidy) : l.text.toList ≠ [] := by
  obtain ⟨c, more, hc, -⟩ := h.begins
  simp [toList_text, hc]

theorem Tidy.newline_notMem_text {l : PrintedLine} (h : l.Tidy) : '\n' ∉ l.text.toList := by
  simp [toList_text, h.newline_notMem]

/-- The blanks in front of a line tell its level. -/
theorem Tidy.eq_of_text {l l' : PrintedLine} (h : l.Tidy) (h' : l'.Tidy)
    (ht : l.text = l'.text) : l = l' := by
  have hblanks (n : Nat) : ∀ c ∈ List.replicate n ' ', (c == ' ') = true :=
    fun c hc => beq_iff_eq.mpr (List.eq_of_mem_replicate hc)
  have hends {l : PrintedLine} (h : l.Tidy) : Token.Ends (· == ' ') l.content.toList := by
    obtain ⟨c, more, hc, hne⟩ := h.begins
    intro d hd
    rw [hc] at hd
    exact beq_eq_false_iff_ne.mpr (Option.some.inj hd ▸ hne)
  have ht := congrArg String.toList ht
  rw [toList_text, toList_text] at ht
  obtain ⟨hlevel, hcontent⟩ := run_cancel (hblanks _) (hblanks _) (hends h) (hends h') ht
  have hlength := congrArg List.length hlevel
  rw [List.length_replicate, List.length_replicate] at hlength
  cases l
  cases l'
  obtain rfl := String.toList_injective hcontent
  obtain rfl : _ = _ := Nat.eq_of_mul_eq_mul_left two_pos hlength
  rfl

end PrintedLine

theorem eq_of_texts {xs ys : List PrintedLine} (hx : ∀ l ∈ xs, l.Tidy) (hy : ∀ l ∈ ys, l.Tidy)
    (h : xs.map (·.text.toList) = ys.map (·.text.toList)) : xs = ys := by
  induction xs generalizing ys with
  | nil => exact (List.map_eq_nil_iff.mp h.symm).symm
  | cons x xs ih =>
    cases ys with
    | nil => cases h
    | cons y ys =>
      obtain ⟨hhead, htail⟩ := List.cons.inj h
      obtain ⟨hx, hxs⟩ := List.forall_mem_cons.mp hx
      obtain ⟨hy, hys⟩ := List.forall_mem_cons.mp hy
      rw [hx.eq_of_text hy (String.toList_injective hhead), ih hxs hys htail]

/-- Tidy lines can be read back from the text they are put together to. -/
theorem eq_of_printedText {xs ys : List PrintedLine} (hx : ∀ l ∈ xs, l.Tidy)
    (hy : ∀ l ∈ ys, l.Tidy) (h : printedText xs = printedText ys) : xs = ys := by
  have htoList (ls : List PrintedLine) : (printedText ls).toList =
      ['\n'].intercalate (ls.map (·.text.toList)) := by
    simp [printedText, String.toList_intercalate, Function.comp_def]
  have hlines {ls : List PrintedLine} (hl : ∀ l ∈ ls, l.Tidy) :
      ∀ cs ∈ ls.map (·.text.toList), cs ≠ [] ∧ '\n' ∉ cs :=
    List.forall_mem_map.mpr fun l hm => ⟨(hl l hm).text_ne_nil, (hl l hm).newline_notMem_text⟩
  have htexts := congrArg String.toList h
  rw [htoList, htoList] at htexts
  exact eq_of_texts hx hy (intercalate_injective (hlines hx) (hlines hy) htexts)

/-! ### Lines of legible statements -/

namespace Stmt
variable {α : Type} {floats : Set Float} {s : Stmt α}

section
variable (hf : Number.Distinct floats)
include hf

theorem newline_notMem_subject (hs : s.Legible floats) : '\n' ∉ s.subject.toList := by
  cases s with
  | function n header body => exact Header.newline_notMem hs.function.1
  | declare n header => exact Header.newline_notMem hs.declare
  | branch n condition thenBody elseBody =>
    simp [subject, Expr.newline_notMem hf condition hs.branch.1]
  | loop n condition body => simp [subject, Expr.newline_notMem hf condition hs.loop.1]
  | give n value =>
    cases value with
    | none => simp [subject]
    | some e => simp [subject, Expr.newline_notMem hf e hs.give]
  | expr e =>
    have he := Expr.newline_notMem hf e hs.expr
    rcases text_of_subject e with ⟨-, htext⟩ | ⟨-, htext⟩
    · rw [htext, String.toList_append, String.toList_append] at he
      exact fun hm => he (List.mem_append_left _ (List.mem_append_right _ hm))
    · rwa [htext] at he

theorem tidy_headline (hs : s.Legible floats) (level : Nat) :
    PrintedLine.Tidy ⟨level, s.headline⟩ where
  begins := by
    obtain ⟨more, hmore⟩ := s.opening.exists_toList_text
    refine ⟨s.opening.initial, more ++ s.subject.toList, ?_, ?_⟩
    · rw [headline, String.toList_append, hmore]
      rfl
    · cases s.opening <;> decide
  newline_notMem := by
    rw [headline, String.toList_append, List.mem_append, not_or]
    exact ⟨by cases s.opening <;> decide, newline_notMem_subject hf hs⟩

end

mutual
theorem tidy_printed (hf : Number.Distinct floats) : (s : Stmt α) → s.Legible floats →
    ∀ level, ∀ l ∈ s.printed level, l.Tidy
  | .function n header body, h, level => by
    rw [printed_eq]
    exact List.forall_mem_cons.mpr
      ⟨tidy_headline hf h level, tidy_printedAll hf body h.function.2 (level + 1)⟩
  | .branch n condition thenBody elseBody, h, level => by
    have hthen := tidy_printedAll hf thenBody h.branch.2.1 (level + 2)
    have helse := tidy_printedAll hf elseBody h.branch.2.2 (level + 2)
    rw [printed_eq, indented, alternative]
    refine List.forall_mem_cons.mpr ⟨tidy_headline hf h level, List.forall_mem_cons.mpr
      ⟨.word ⟨'T', _, rfl, by decide⟩ (by decide), List.forall_mem_append.mpr ⟨hthen, ?_⟩⟩⟩
    split
    · exact List.forall_mem_nil _
    · exact List.forall_mem_cons.mpr ⟨.word ⟨'E', _, rfl, by decide⟩ (by decide), helse⟩
  | .loop n condition body, h, level => by
    rw [printed_eq]
    exact List.forall_mem_cons.mpr
      ⟨tidy_headline hf h level, tidy_printedAll hf body h.loop.2 (level + 1)⟩
  | .declare n header, h, level | .give n value, h, level | .expr e, h, level => by
    rw [printed_eq]
    exact List.forall_mem_singleton.mpr (tidy_headline hf h level)

theorem tidy_printedAll (hf : Number.Distinct floats) : (ss : List (Stmt α)) →
    LegibleAll floats ss → ∀ level, ∀ l ∈ printedAll level ss, l.Tidy
  | [], _, _ => List.forall_mem_nil _
  | s :: ss, h, level => List.forall_mem_append.mpr
    ⟨tidy_printed hf s (legibleAll_cons.mp h).1 level,
      tidy_printedAll hf ss (legibleAll_cons.mp h).2 level⟩
end

end Stmt

/-! ### Programs -/

/-- A program whose names, quotes and numbers can be told is told by its text. -/
theorem Program.eq_of_text {α : Type} {floats : Set Float} {p q : Program α}
    (hf : Number.Distinct floats) (hp : Stmt.LegibleAll floats p) (hq : Stmt.LegibleAll floats q)
    (h : p.text = q.text) :
    Stmt.mapAll (fun _ => ()) p = Stmt.mapAll (fun _ => ()) q := by
  have hfirst : PrintedLine.Tidy ⟨0, "Program"⟩ := .word ⟨'P', _, rfl, by decide⟩ (by decide)
  have hlines := eq_of_printedText
    (List.forall_mem_cons.mpr ⟨hfirst, Stmt.tidy_printedAll hf p hp 1⟩)
    (List.forall_mem_cons.mpr ⟨hfirst, Stmt.tidy_printedAll hf q hq 1⟩) h
  exact (Stmt.toldAll hf p hp q 1 [] [] hq Stmt.outside_nil Stmt.outside_nil
    (congrArg (· ++ []) (List.cons.inj hlines).2)).1

/-- The floats that stand in a program. -/
def Program.floats {α : Type} (p : Program α) : Set Float :=
  {x | Form.float x ∈ Stmt.formsAll p}

/-- What stands in the program of a text can be told, if its floats can. -/
theorem legibleAll_of_program {text : String} {tokens : List Token} {p : Program Position}
    {floats : Set Float} (ht : Token.ofLines (Text.lines text) = .ok tokens)
    (hp : Grammar.program tokens = .ok p) (hfloats : p.floats ⊆ floats) :
    Stmt.LegibleAll floats p := by
  intro f hf
  refine ⟨?_, by rintro x rfl; exact hfloats hf⟩
  rw [← Grammar.kept_program hp, Grammar.kept, Multiset.mem_coe, List.mem_filter] at hf
  obtain ⟨t, htokens, rfl⟩ := List.mem_map.mp hf.1
  exact Token.spelled_of_lines ht t htokens

/-- Programs of source texts are printed alike exactly if they differ in their positions only, as
long as their floats have texts of digits, points, exponents and signs, and no two the same. -/
theorem Program.text_eq_iff {source source' : String} {tokens tokens' : List Token}
    {p q : Program Position} (ht : Token.ofLines (Text.lines source) = .ok tokens)
    (hp : Grammar.program tokens = .ok p)
    (ht' : Token.ofLines (Text.lines source') = .ok tokens')
    (hq : Grammar.program tokens' = .ok q) (hf : Number.Distinct (p.floats ∪ q.floats)) :
    p.text = q.text ↔ Stmt.mapAll (fun _ => ()) p = Stmt.mapAll (fun _ => ()) q := by
  constructor
  · exact eq_of_text hf (legibleAll_of_program ht hp Set.subset_union_left)
      (legibleAll_of_program ht' hq Set.subset_union_right)
  · intro h
    rw [text, text, ← Stmt.printedAll_map (fun _ => ()) 1 p, h, Stmt.printedAll_map]

/-- A conditional with two floats and a quoted text. -/
def quotedBranch {α : Type} (n : Fin 9 → α) : Program α :=
  [.branch (n 0) (.binary (n 1) .less (.place (.whole (n 2) "x" none)) (.float (n 3) 1.5))
    [.expr (.call (n 4) "f" [.int (n 5) 2, .string (n 6) "a, (b)"])]
    [.give (n 7) (some (.float (n 8) 0.25))]]

theorem distinct_quotedBranch {α : Type} (n n' : Fin 9 → α) :
    Number.Distinct ((quotedBranch n).floats ∪ (quotedBranch n').floats) := by
  have hfloats (n : Fin 9 → α) : (quotedBranch n).floats = {1.5, 0.25} := by
    ext x
    simp [Program.floats, quotedBranch, Stmt.formsAll, Stmt.forms, branchEnd, opensBranch,
      Stmt.isBranch, Expr.forms, Expr.formsAll, Place.forms, typeForms]
  rw [hfloats, hfloats, Set.union_self]
  constructor
  · rintro x (rfl | rfl)
    · exact List.all_eq_true.mp (by decide +kernel)
    · exact List.all_eq_true.mp (by decide +kernel)
  · rintro x (rfl | rfl) y (rfl | rfl) h
    · rfl
    · exact absurd h (by decide +kernel)
    · exact absurd h (by decide +kernel)
    · rfl

def spreadSource : String := "if x < 1.5\n  f(2 \"a, (b)\")\nelse\n  return 0.25\nend"

def spreadTokens : List Token :=
  [⟨.keyword .ifWord, ⟨1, 1⟩⟩, ⟨.name "x", ⟨1, 4⟩⟩, ⟨.connective (.operate .less), ⟨1, 6⟩⟩,
    ⟨.float 1.5, ⟨1, 8⟩⟩, ⟨.endLine, ⟨1, 11⟩⟩, ⟨.call "f", ⟨2, 3⟩⟩, ⟨.mark .openParen, ⟨2, 4⟩⟩,
    ⟨.int 2, ⟨2, 5⟩⟩, ⟨.string "a, (b)", ⟨2, 7⟩⟩, ⟨.mark .closeParen, ⟨2, 15⟩⟩,
    ⟨.endLine, ⟨2, 16⟩⟩, ⟨.keyword .elseWord, ⟨3, 1⟩⟩, ⟨.endLine, ⟨3, 5⟩⟩,
    ⟨.keyword .returnWord, ⟨4, 3⟩⟩, ⟨.float 0.25, ⟨4, 10⟩⟩, ⟨.endLine, ⟨4, 14⟩⟩,
    ⟨.keyword .endWord, ⟨5, 1⟩⟩, ⟨.endLine, ⟨5, 4⟩⟩]

def spreadPositions : Fin 9 → Position :=
  ![⟨1, 1⟩, ⟨1, 6⟩, ⟨1, 4⟩, ⟨1, 8⟩, ⟨2, 3⟩, ⟨2, 5⟩, ⟨2, 7⟩, ⟨4, 3⟩, ⟨4, 10⟩]

def tightSource : String := "if (x < 1.50)\nf((2), \"a, (b)\")\nelse return 0.250\nend"

def tightTokens : List Token :=
  [⟨.keyword .ifWord, ⟨1, 1⟩⟩, ⟨.mark .openParen, ⟨1, 4⟩⟩, ⟨.name "x", ⟨1, 5⟩⟩,
    ⟨.connective (.operate .less), ⟨1, 7⟩⟩, ⟨.float 1.5, ⟨1, 9⟩⟩, ⟨.mark .closeParen, ⟨1, 13⟩⟩,
    ⟨.endLine, ⟨1, 14⟩⟩, ⟨.call "f", ⟨2, 1⟩⟩, ⟨.mark .openParen, ⟨2, 2⟩⟩,
    ⟨.mark .openParen, ⟨2, 3⟩⟩, ⟨.int 2, ⟨2, 4⟩⟩, ⟨.mark .closeParen, ⟨2, 5⟩⟩,
    ⟨.mark .comma, ⟨2, 6⟩⟩, ⟨.string "a, (b)", ⟨2, 8⟩⟩, ⟨.mark .closeParen, ⟨2, 16⟩⟩,
    ⟨.endLine, ⟨2, 17⟩⟩, ⟨.keyword .elseWord, ⟨3, 1⟩⟩, ⟨.keyword .returnWord, ⟨3, 6⟩⟩,
    ⟨.float 0.25, ⟨3, 13⟩⟩, ⟨.endLine, ⟨3, 18⟩⟩, ⟨.keyword .endWord, ⟨4, 1⟩⟩,
    ⟨.endLine, ⟨4, 4⟩⟩]

def tightPositions : Fin 9 → Position :=
  ![⟨1, 1⟩, ⟨1, 7⟩, ⟨1, 5⟩, ⟨1, 9⟩, ⟨2, 1⟩, ⟨2, 4⟩, ⟨2, 8⟩, ⟨3, 6⟩, ⟨3, 13⟩]

/-- Two layouts of one program, with the same text. -/
theorem quotedBranch_identified :
    Token.ofLines (Text.lines spreadSource) = .ok spreadTokens ∧
    Grammar.program spreadTokens = .ok (quotedBranch spreadPositions) ∧
    Token.ofLines (Text.lines tightSource) = .ok tightTokens ∧
    Grammar.program tightTokens = .ok (quotedBranch tightPositions) ∧
    (quotedBranch spreadPositions).text = (quotedBranch tightPositions).text ∧
    Stmt.mapAll (fun _ => ()) (quotedBranch spreadPositions) =
      Stmt.mapAll (fun _ => ()) (quotedBranch tightPositions) := by
  have ht : Token.ofLines (Text.lines spreadSource) = .ok spreadTokens :=
    eq_ok_of_toOption (by decide +kernel)
  have hp : Grammar.program spreadTokens = .ok (quotedBranch spreadPositions) := by
    with_unfolding_all rfl
  have ht' : Token.ofLines (Text.lines tightSource) = .ok tightTokens :=
    eq_ok_of_toOption (by decide +kernel)
  have hq : Grammar.program tightTokens = .ok (quotedBranch tightPositions) := by
    with_unfolding_all rfl
  have htext : (quotedBranch spreadPositions).text = (quotedBranch tightPositions).text := by
    decide +kernel
  exact ⟨ht, hp, ht', hq, htext,
    (Program.text_eq_iff ht hp ht' hq (distinct_quotedBranch _ _)).mp htext⟩

end AlgoFrontEnd
