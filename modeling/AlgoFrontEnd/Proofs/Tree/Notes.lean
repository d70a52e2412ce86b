import AlgoFrontEnd.Tree.Printer

/-! Trees under a change of their notes: their text stays the same. -/
namespace AlgoFrontEnd
variable {α β : Type} (f : α → β)

theorem note_map (e : Expr α) : (e.map f).note = f e.note := by
  cases e with
  | place p => cases p <;> rfl
  | _ => rfl

theorem note_mapAll (es : List (Expr α)) :
    (Expr.mapAll f es).map (·.note) = (es.map (·.note)).map f := by
  rw [Expr.mapAll_eq_map, List.map_map, List.map_map]
  exact List.map_congr_left fun e _ => note_map f e

theorem mapAll_append (xs ys : List (Stmt α)) :
    Stmt.mapAll f (xs ++ ys) = Stmt.mapAll f xs ++ Stmt.mapAll f ys := by
  simp only [Stmt.mapAll_eq_map, List.map_append]

theorem Place.text_map (p : Place α) : (p.map f).text = p.text := by
  cases p <;> rfl

namespace Expr

mutual
theorem text_map : (e : Expr α) → (e.map f).text = e.text
  | int _ _ | float _ _ | bool _ _ | string _ _ => by simp only [map, text]
  | array _ elements => by simp only [map, text, texts_map elements]
  | place p => by simp only [map, text, p.text_map f]
  | call _ _ arguments => by simp only [map, text, texts_map arguments]
  | binary _ _ left right => by simp only [map, text, text_map left, text_map right]
  | sign _ _ operand => by simp only [map, text, text_map operand]
  | assign _ target source => by simp only [map, text, target.text_map f, text_map source]

theorem texts_map : (es : List (Expr α)) → texts (mapAll f es) = texts es
  | [] => rfl
  | e :: es => by simp only [mapAll, texts, text_map e, texts_map es]
end

theorem statementText_map (e : Expr α) : (e.map f).statementText = e.statementText := by
  cases e with
  | assign n target source =>
    simp only [map, statementText, target.text_map f, source.text_map f]
  | _ => exact congrArg ("Expr: " ++ ·) (text_map f _)

end Expr

theorem Header.text_map (h : Header α) : (h.map f).text = h.text := by
  simp only [text, map, List.map_map]
  rfl

namespace Stmt

mutual
theorem printed_map (level : Nat) : (s : Stmt α) → (s.map f).printed level = s.printed level
  | function _ header body => by
    simp only [map, printed, header.text_map f, printedAll_map (level + 1) body]
  | declare _ header => by simp only [map, printed, header.text_map f]
  | branch _ condition thenBody elseBody => by
    have hempty : (mapAll f elseBody).isEmpty = elseBody.isEmpty := by
      rw [mapAll_eq_map, List.isEmpty_map]
    simp only [map, printed, condition.text_map f, hempty, printedAll_map (level + 2) thenBody,
      printedAll_map (level + 2) elseBody]
  | loop _ condition body => by
    simp only [map, printed, condition.text_map f, printedAll_map (level + 1) body]
  | give _ none => rfl
  | give _ (some value) => by simp only [map, Option.map_some, printed, value.text_map f]
  | expr e => by simp only [map, printed, e.statementText_map f]

theorem printedAll_map (level : Nat) : (ss : List (Stmt α)) →
    printedAll level (mapAll f ss) = printedAll level ss
  | [] => rfl
  | s :: ss => by simp only [mapAll, printedAll, printed_map level s, printedAll_map level ss]
end

theorem text_map (s : Stmt α) : (s.map f).text = s.text :=
  congrArg printedText (printed_map f 0 s)

end Stmt
end AlgoFrontEnd
