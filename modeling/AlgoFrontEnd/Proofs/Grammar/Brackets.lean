import AlgoFrontEnd.Grammar.Expression

/-! Tokens that the search for a closing bracket and the split at commas pass over as a whole. -/
namespace AlgoFrontEnd.Grammar
open Token (Form)

/-- A search for a closing bracket that starts before the tokens ends behind them. -/
def Balanced (ts : List Token) : Prop :=
  ∀ depth rest, closing? depth (ts ++ rest) = (closing? depth rest).map fun p => (ts ++ p.1, p.2)

namespace Balanced

theorem nil : Balanced [] := by
  intro depth rest
  simp

theorem append {ts us : List Token} (h : Balanced ts) (k : Balanced us) : Balanced (ts ++ us) := by
  intro depth rest
  rw [List.append_assoc, h, k, Option.map_map]
  simp only [Function.comp_def, List.append_assoc]

theorem cons {t : Token} {ts : List Token} (h : Balanced ts)
    (ho : t.form ≠ .mark .openBracket) (hc : t.form ≠ .mark .closeBracket) :
    Balanced (t :: ts) := by
  intro depth rest
  have step : closing? depth (t :: (ts ++ rest)) =
      (closing? depth (ts ++ rest)).map fun p => (t :: p.1, p.2) := by
    rcases t with ⟨form, position⟩
    cases form with
    | mark m => cases m <;> simp_all [closing?]
    | _ => simp only [closing?]
  rw [List.cons_append, step, h, Option.map_map]
  rfl

theorem brackets {ts : List Token} (h : Balanced ts) (opener closer : Position) :
    Balanced (⟨.mark .openBracket, opener⟩ :: ts ++ [⟨.mark .closeBracket, closer⟩]) := by
  intro depth rest
  simp only [List.cons_append, List.append_assoc, List.nil_append, closing?, h (depth + 1),
    Option.map_map, Function.comp_def]

/-- The bracket behind balanced tokens closes the one before them. -/
theorem closing?_eq {ts : List Token} (h : Balanced ts) (closer : Position) (rest : List Token) :
    closing? 0 (ts ++ ⟨.mark .closeBracket, closer⟩ :: rest) = some (ts, rest) := by
  rw [h]
  simp [closing?]

end Balanced

/-- Puts tokens in front of the first part. -/
def prependPart (ts : List Token) : List (List Token) → List (List Token)
  | [] => [ts]
  | part :: parts => (ts ++ part) :: parts

/-- A split that starts before the tokens leaves them whole and in one part. -/
def Unsplit (depth : Int) (ts : List Token) : Prop :=
  ∀ rest, splitParts depth (ts ++ rest) = prependPart ts (splitParts depth rest)

namespace Unsplit

theorem nil (depth : Int) : Unsplit depth [] := by
  intro rest
  rw [List.nil_append]
  cases h : splitParts depth rest with
  | nil => exact absurd h (splitParts_ne_nil depth rest)
  | cons part parts => rfl

theorem append {depth : Int} {ts us : List Token} (h : Unsplit depth ts) (k : Unsplit depth us) :
    Unsplit depth (ts ++ us) := by
  intro rest
  rw [List.append_assoc, h, k]
  cases splitParts depth rest <;> simp [prependPart]

/-- Behind a token that is no separating comma the split goes on at another depth. -/
theorem splitParts_cons {depth : Int} {t : Token} (h : t.form = .mark .comma → depth ≠ 0)
    (rest : List Token) :
    splitParts depth (t :: rest) =
      prependPart [t] (splitParts (depth + depthChange t.form) rest) := by
  rw [splitParts]
  split
  · simp_all
  · split <;> simp_all [prependPart]

theorem cons {depth : Int} {t : Token} {ts : List Token} (k : Unsplit depth ts)
    (h : t.form = .mark .comma → depth ≠ 0) (hd : depthChange t.form = 0) :
    Unsplit depth (t :: ts) := by
  intro rest
  rw [List.cons_append, splitParts_cons h, hd, Int.add_zero, k]
  cases splitParts depth rest <;> simp [prependPart]

theorem enclosed {depth : Int} {opener closer : Token} {ts : List Token}
    (k : Unsplit (depth + 1) ts) (ho : depthChange opener.form = 1)
    (hc : depthChange closer.form = -1) : Unsplit depth (opener :: ts ++ [closer]) := by
  have no : opener.form = .mark .comma → depth ≠ 0 := by
    intro h
    rw [h] at ho
    exact absurd ho (by decide)
  have nc : closer.form = .mark .comma → depth + 1 ≠ 0 := by
    intro h
    rw [h] at hc
    exact absurd hc (by decide)
  intro rest
  rw [List.append_assoc, List.cons_append, splitParts_cons no, ho, k, List.singleton_append,
    splitParts_cons nc, hc, Int.add_neg_cancel_right]
  cases splitParts depth rest <;> simp [prependPart]

/-- Tokens that no comma splits are a single part. -/
theorem splitParts_eq {ts : List Token} (h : Unsplit 0 ts) : splitParts 0 ts = [ts] := by
  have := h []
  simpa [splitParts, prependPart] using this

/-- A comma at depth zero ends the part before it. -/
theorem splitParts_comma {ts : List Token} (h : Unsplit 0 ts) (comma : Position)
    (rest : List Token) :
    splitParts 0 (ts ++ ⟨.mark .comma, comma⟩ :: rest) = ts :: splitParts 0 rest := by
  rw [h, splitParts]
  simp [prependPart]

end Unsplit

/-- Parts are stretches of what is split, the first of them from its start on. -/
theorem isInfix_of_splitParts {depth : Int} {ts part : List Token} {parts : List (List Token)}
    (h : splitParts depth ts = part :: parts) : part <+: ts ∧ ∀ p ∈ parts, p <:+: ts := by
  induction ts generalizing depth part parts with
  | nil =>
    cases h
    exact ⟨List.prefix_rfl, List.forall_mem_nil _⟩
  | cons t rest ih =>
    rw [splitParts] at h
    split at h
    · cases h
      obtain ⟨first, more, hs⟩ := List.exists_cons_of_ne_nil (splitParts_ne_nil depth rest)
      obtain ⟨hfirst, hmore⟩ := ih hs
      rw [hs]
      exact ⟨List.nil_prefix, List.forall_mem_cons.mpr
        ⟨List.infix_cons hfirst.isInfix, fun p hp => List.infix_cons (hmore p hp)⟩⟩
    · split at h
      · rename_i hs
        exact absurd hs (splitParts_ne_nil _ rest)
      · rename_i first more hs
        cases h
        obtain ⟨hfirst, hmore⟩ := ih hs
        exact ⟨List.prefix_cons_inj t |>.mpr hfirst, fun p hp => List.infix_cons (hmore p hp)⟩

theorem isInfix_of_elementParts {opener : Position} {inside part : List Token}
    {parts : List (List Token)} (h : elementParts opener inside = .ok parts) (hp : part ∈ parts) :
    part <:+: inside := by
  simp only [elementParts, fault] at h
  split at h
  · cases h
    cases hp
  · split at h
    · cases h
    · cases h
      obtain ⟨first, more, hs⟩ := List.exists_cons_of_ne_nil (splitParts_ne_nil 0 inside)
      obtain ⟨hfirst, hmore⟩ := isInfix_of_splitParts hs
      rw [hs] at hp
      rcases List.mem_cons.mp hp with rfl | hp
      · exact hfirst.isInfix
      · exact hmore part hp

end AlgoFrontEnd.Grammar
