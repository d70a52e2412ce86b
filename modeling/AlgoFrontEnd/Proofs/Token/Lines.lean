import AlgoFrontEnd.Proofs.Token.Spans

/-! Tokens of lines behind other lines. Main statements: they are the tokens that the lines have
alone, only further down, and a fault of lines lies on one of them. -/
namespace AlgoFrontEnd

/-- A position further down by a number of lines. -/
def Position.down (k : Nat) (p : Position) : Position := ⟨p.line + k, p.column⟩

/-- The same token at another position. -/
def Token.move (f : Position → Position) (t : Token) : Token := ⟨t.form, f t.position⟩

namespace Token

def Rejection.down (k : Nat) : Rejection → Rejection
  | .fault f => .fault ⟨f.cause, f.position.map (·.down k)⟩
  | .limit l => .limit l

/-! ### One line -/

theorem splitRun_down (k : Nat) (number : Int) (column : Nat) (due : Bool) (cs : List Char) :
    splitRun (number + k) column due cs =
      (splitRun number column due cs).map (List.map (move (·.down k))) := by
  fun_induction splitRun number column due cs with
  | case1 =>
    rw [splitRun]
    rfl
  | case2 column due c rest s hs ih =>
    rw [dite_eq_ite] at hs
    rw [splitRun, hs]
    simp only [ih]
    cases splitRun number (column + 1) true rest <;> rfl
  | case3 column due c rest hs op rest' hc ih =>
    rw [dite_eq_ite] at hs
    rw [splitRun, hs]
    simp only
    split
    · rename_i heq
      rw [hc] at heq
      cases heq
      rw [ih]
      cases splitRun number (column + op.spelling.length) true rest' <;> rfl
    · simp_all
  | case4 column due c rest hs hc =>
    rw [dite_eq_ite] at hs
    rw [splitRun, hs]
    simp only
    split
    · simp_all
    · rfl

theorem ofPieces_down (k : Nat) (number : Int) (previous : Option Form) (ps : List Placed) :
    ofPieces (number + k) previous ps =
      (ofPieces number previous ps).map (List.map (move (·.down k))) := by
  fun_induction ofPieces number previous ps with
  | case1 => rfl
  | case2 previous column chars text _ _ rest hword form =>
    rename_i ih
    rw [ofPieces.eq_2 _ _ _ _ _ _ _ _ hword, ih]
    cases ofPieces number (some form) rest <;> rfl
  | case3 previous column chars rest hword form =>
    rename_i ih
    rw [ofPieces.eq_3 _ _ _ _ _ hword, ih]
    cases ofPieces number (some form) rest <;> rfl
  | case4 previous column chars rest tokens hr ih =>
    have hlast : ((tokens.map (move (·.down k))).getLast?.map (·.form) <|> previous) =
        (tokens.getLast?.map (·.form) <|> previous) := by
      rw [List.getLast?_map, Option.map_map]
      rfl
    rw [ofPieces, splitRun_down, hr]
    simp only [Option.map_some, hlast, ih]
    cases ofPieces number (tokens.getLast?.map (·.form) <|> previous) rest with
    | error e => rfl
    | ok ts => simp [bind, Except.bind, pure, Except.pure, Except.map]
  | case5 previous column chars rest hr =>
    rw [ofPieces, splitRun_down, hr]
    rfl
  | case6 previous column chars rest ih =>
    rw [ofPieces]
    cases numeralForm chars column with
    | error e => rfl
    | ok form =>
      simp only [bind, Except.bind, ih form]
      cases ofPieces number (some form) rest <;> rfl
  | case7 previous column chars rest form =>
    rename_i ih
    rw [ofPieces, ih]
    cases ofPieces number (some form) rest <;> rfl
  | case8 previous column m rest ih =>
    rw [ofPieces, ih]
    cases ofPieces number (some (.mark m)) rest <;> rfl

theorem ofLine_down (k : Nat) (number : Int) (chars : List Char) :
    ofLine (number + k) chars = (ofLine number chars).map (List.map (move (·.down k))) := by
  rw [ofLine, ofLine, ofPieces_down]
  cases ofPieces number none (cut 1 chars).pieces with
  | error e => rfl
  | ok ts =>
    simp only [bind, Except.bind, Except.map]
    split
    · rfl
    · simp [pure, Except.pure, move, Position.down]

/-! ### Many lines -/

theorem atLine_down (k : Nat) (number : Int) (r : Refusal) :
    r.atLine (number + k) = (r.atLine number).down k := by
  cases r <;> rfl

theorem ofLinesFrom_down (k : Nat) (number : Int) (lines : List String) :
    ofLinesFrom (number + k) lines =
      ((ofLinesFrom number lines).mapError (Rejection.down k)).map
        (List.map (move (·.down k))) := by
  induction lines generalizing number with
  | nil => rfl
  | cons line lines ih =>
    rw [ofLinesFrom, ofLinesFrom, ofLine_down]
    have hnext : number + k + 1 = number + 1 + k := by omega
    cases ofLine number (lineText line) with
    | error r =>
      show Except.error (r.atLine (number + k)) = Except.error ((r.atLine number).down k)
      rw [atLine_down]
    | ok ts =>
      simp only [Except.map, Except.mapError, bind, Except.bind]
      rw [hnext, ih]
      cases ofLinesFrom (number + 1) lines with
      | error r => rfl
      | ok us => simp [Except.map, Except.mapError, pure, Except.pure]

theorem ofLinesFrom_append (number : Int) (xs ys : List String) :
    ofLinesFrom number (xs ++ ys) = (do
      let first ← ofLinesFrom number xs
      let second ← ofLinesFrom (number + xs.length) ys
      return first ++ second) := by
  induction xs generalizing number with
  | nil =>
    simp only [List.nil_append, ofLinesFrom, List.length_nil, Int.natCast_zero, Int.add_zero]
    cases ofLinesFrom number ys <;> rfl
  | cons line xs ih =>
    have hnext : number + 1 + xs.length = number + (line :: xs).length := by
      simp
      omega
    rw [List.cons_append, ofLinesFrom, ofLinesFrom, ih, hnext]
    cases ofLine number (lineText line) with
    | error r => rfl
    | ok ts =>
      simp only [Except.mapError, bind, Except.bind]
      cases ofLinesFrom (number + 1) xs with
      | error r => rfl
      | ok us =>
        cases ofLinesFrom (number + (line :: xs).length) ys with
        | error r => rfl
        | ok vs => simp [pure, Except.pure]

/-- A fault of lines lies on one of them. -/
theorem line_of_ofLinesFrom {number : Int} {lines : List String} {f : Fault}
    (h : ofLinesFrom number lines = .error (.fault f)) :
    ∃ p, f.position = some p ∧ number ≤ p.line ∧ p.line < number + lines.length := by
  induction lines generalizing number with
  | nil => cases h
  | cons line lines ih =>
    rw [ofLinesFrom] at h
    cases hl : ofLine number (lineText line) with
    | error r =>
      rw [hl] at h
      cases r with
      | fault cause column =>
        cases h
        refine ⟨⟨number, column⟩, rfl, Int.le_refl _, ?_⟩
        simp only [List.length_cons]
        omega
      | limit l => cases h
    | ok ts =>
      rw [hl] at h
      cases hm : ofLinesFrom (number + 1) lines with
      | error r =>
        rw [hm] at h
        cases h
        obtain ⟨p, hp, hle, hlt⟩ := ih hm
        refine ⟨p, hp, by omega, ?_⟩
        simp
        omega
      | ok us =>
        rw [hm] at h
        cases h

/-! ### Places of tokens -/

/-- A token of many lines is a token of one of them. -/
theorem exists_line_of_mem {number : Int} {lines : List String} {ts : List Token} {t : Token}
    (h : ofLinesFrom number lines = .ok ts) (ht : t ∈ ts) :
    ∃ (i : Nat) (line : String) (us : List Token), lines[i]? = some line ∧
      ofLine (number + i) (lineText line) = .ok us ∧ t ∈ us := by
  induction lines generalizing number ts with
  | nil =>
    cases h
    cases ht
  | cons line lines ih =>
    simp only [ofLinesFrom, bind_eq_ok, mapError_eq_ok, pure_eq_ok] at h
    obtain ⟨first, hfirst, more, hmore, rfl⟩ := h
    rcases List.mem_append.mp ht with ht | ht
    · exact ⟨0, line, first, rfl, by simpa using hfirst, ht⟩
    · obtain ⟨i, line', us, hl, hus, ht⟩ := ih hmore ht
      refine ⟨i + 1, line', us, hl, ?_, ht⟩
      rwa [Int.add_assoc, Int.add_comm 1] at hus

end Token

end AlgoFrontEnd
