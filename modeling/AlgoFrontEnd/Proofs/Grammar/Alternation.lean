import AlgoFrontEnd.Proofs.Grammar.Placement

/-! Operands and operators alternate in every line whose operators are in place. -/
namespace AlgoFrontEnd.Grammar
open Token (Form)

/-! ### Steps of the scan -/

section
variable {b : Bool} {s : Scan} {outer : List Enclosing} {rest : List Token}

theorem alternates_nil : alternates b s outer [] = (outer.isEmpty && s.isComplete) := by
  rw [alternates]

theorem alternates_name {after : List Token} {a : Option TypeRef}
    (h : typing? rest = .ok (a, after)) (text : String) (p : Position) :
    alternates b s outer (⟨.name text, p⟩ :: rest) = alternates a.isNone (s.add 1) outer after := by
  rw [alternates]
  split <;> simp_all

theorem alternates_brackets {opener : Position} {inside after : List Token}
    {parts : List (List Token)} (hc : closing? 0 rest = some (inside, after))
    (hp : elementParts opener inside = .ok parts) :
    alternates b s outer (⟨.mark .openBracket, opener⟩ :: rest) =
      if b && (offset? opener parts).isSome then alternates false s outer after
      else partsAlternate parts && alternates false (s.add 1) outer after := by
  rw [alternates]
  split
  · simp_all
  · rename_i hc'
    rw [hc] at hc'
    cases hc'
    split
    · simp_all
    · rename_i hp'
      rw [hp] at hp'
      cases hp'
      rfl

theorem alternates_call (text : String) (o p : Position) :
    alternates b s outer (⟨.call text, o⟩ :: ⟨.mark .openParen, p⟩ :: rest) =
      alternates false .start (⟨s, true, 0⟩ :: outer) rest := by
  rw [alternates]

theorem alternates_openParen (p : Position) :
    alternates b s outer (⟨.mark .openParen, p⟩ :: rest) =
      alternates false .start (⟨s, false, 0⟩ :: outer) rest := by
  rw [alternates]

theorem alternates_closeParen (e : Enclosing) (p : Position) :
    alternates b s (e :: outer) (⟨.mark .closeParen, p⟩ :: rest) =
      (s.isComplete && alternates false (e.close s) outer rest) := by
  rw [alternates]

theorem alternates_comma (e : Enclosing) (p : Position) :
    alternates b s (e :: outer) (⟨.mark .comma, p⟩ :: rest) =
      (s.isComplete && alternates false .start (e.comma s :: outer) rest) := by
  rw [alternates]

theorem alternates_connective {s' : Scan} (h : s.connective? = some s') (c : Connective)
    (p : Position) :
    alternates b s outer (⟨.connective c, p⟩ :: rest) = alternates false s' outer rest := by
  rw [alternates]
  simp [h]

theorem alternates_sign (sign : Sign) (p : Position) :
    alternates b s outer (⟨.sign sign, p⟩ :: rest) = alternates false s.sign outer rest := by
  rw [alternates]

theorem alternates_literal {t : Token} {v : Expr Position} (h : literal? t = some v) :
    alternates b s outer (t :: rest) = alternates false (s.add 1) outer rest := by
  obtain ⟨form, p⟩ := t
  cases form with
  | int _ | float _ | bool _ | string _ => rw [alternates] <;> simp [literal?]
  | _ => simp [literal?] at h

end

/-! ### What a row does to the scan -/

/-- The scan behind a row of `n` more values. -/
structure Scan.After (s : Scan) (chained : Bool) (n : Nat) (s' : Scan) : Prop where
  total : s'.total = s.total + n
  plain : chained = false → s' = s.add n
  chain : chained = true → s'.chained = true ∧ s'.count = 1 ∧ s'.owed = false

/-- A chained row fits where no connective has been read, or as the operand behind one. -/
def Scan.Takes (s : Scan) (n : Nat) : Prop := s.chained = true → s.count = 0 ∧ n = 1

namespace Scan

theorem after_add (s : Scan) (n : Nat) : s.After false n (s.add n) :=
  ⟨by simp [add, total, Nat.add_assoc], fun _ => rfl, nofun⟩

theorem add_add (s : Scan) (m n : Nat) : (s.add m).add n = s.add (m + n) := by
  cases m <;> simp [add, Nat.add_assoc]

theorem After.add {s s' : Scan} {m : Nat} (h : s.After false m s') (n : Nat) :
    s.After false (m + n) (s'.add n) := by
  rw [h.plain rfl, add_add]
  exact s.after_add (m + n)

/-- A value behind a sign settles what is owed. -/
theorem After.sign {s s₁ s₂ : Scan} {m n : Nat} (h : s.After false m s₁)
    (h' : s₁.sign.After false (n + 1) s₂) : s.After false (m + (n + 1)) s₂ := by
  have he : s₂ = s.add (m + (n + 1)) := by
    rw [h'.plain rfl, h.plain rfl]
    simp [Scan.add, Scan.sign, Nat.add_assoc]
  rw [he]
  exact s.after_add (m + (n + 1))

/-- Behind a row with a value, a connective is taken. -/
theorem After.connective? {s s' : Scan} {chained : Bool} {n : Nat}
    (h : s.After chained (n + 1) s') (ht : s.Takes (n + 1)) :
    s'.connective? = some ⟨s.total + n, 0, true, false⟩ := by
  have hc : s'.isComplete = true ∧ 1 ≤ s'.count := by
    cases chained with
    | true =>
      obtain ⟨-, h₁, h₂⟩ := h.chain rfl
      simp [isComplete, h₁, h₂]
    | false =>
      rw [h.plain rfl]
      cases hs : s.chained with
      | false =>
        simp only [isComplete, Scan.add, hs]
        exact ⟨by simp, by omega⟩
      | true =>
        obtain ⟨h₀, h₁⟩ := ht hs
        simp [isComplete, Scan.add, hs, h₀, h₁]
  rw [Scan.connective?, hc.1, h.total]
  simp [hc.2]

theorem takes_connective (n : Nat) : Takes ⟨n, 0, true, false⟩ 1 := fun _ => ⟨rfl, rfl⟩

/-- The only value behind a connective completes the row. -/
theorem After.operand {s s' : Scan} {n : Nat} {d : Bool}
    (h : After ⟨s.total + n, 0, true, false⟩ d 1 s') : s.After true (n + 1) s' := by
  refine ⟨h.total, nofun, ?_⟩
  intro _
  cases d with
  | true => exact h.chain rfl
  | false =>
    rw [h.plain rfl]
    simp [Scan.add]

end Scan

/-! ### Rows -/

theorem endsInName_append_cons {ts us : List Token} {t : Token}
    (h : ∀ text, t.form ≠ .name text) : endsInName (ts ++ t :: us) = endsInName us := by
  obtain ⟨form, p⟩ := t
  simp only [endsInName, List.getLast?_append, List.getLast?_cons, Option.some_or]
  cases us.getLast? with
  | none => cases form <;> simp_all
  | some u => rfl

theorem endsInName_of_getLast? {ts : List Token} {t : Token} (ht : ts.getLast? = some t)
    (h : ∀ text, t.form ≠ .name text) : endsInName ts = false := by
  obtain ⟨form, p⟩ := t
  rw [endsInName, ht]
  cases form <;> simp_all

theorem endsInName_enclosed (ts us : List Token) {t : Token} (h : ∀ text, t.form ≠ .name text) :
    endsInName (ts ++ (us ++ [t])) = false :=
  endsInName_of_getLast? (by simp [List.getLast?_append]) h

theorem endsInName_name {ts typing : List Token} {text : String} {p : Position}
    {a : Option TypeRef} (h : typing? typing = .ok (a, [])) :
    endsInName (ts ++ ⟨.name text, p⟩ :: typing) = a.isNone := by
  unfold typing? at h
  split at h
  · cases h
    simp [endsInName]
  · cases h
    simp [endsInName]
  · exact absurd h fault_ne_ok
  · cases h
    simp [endsInName]

theorem colon_ne_of_literal? {t : Token} {v : Expr Position} (h : literal? t = some v)
    {rest : List Token} : ∀ u ∈ (t :: rest).head?, u.form ≠ .mark .colon := by
  simp only [List.head?_cons, Option.mem_some_iff]
  rintro _ rfl hu
  simp [literal?, hu] at h

theorem Scan.After.isComplete {c : Bool} {n : Nat} {s : Scan} (h : Scan.After .start c n s) :
    s.isComplete = true := by
  cases c with
  | true =>
    obtain ⟨h₁, h₂, h₃⟩ := h.chain rfl
    simp [Scan.isComplete, h₂, h₃]
  | false =>
    rw [h.plain rfl]
    simp [Scan.isComplete, Scan.add, Scan.start]

theorem Scan.total_start : Scan.start.total = 0 := rfl

theorem takes_start (n : Nat) : Scan.start.Takes n := nofun

mutual
/-- A row is scanned to its end, with as many values as it has. -/
theorem Row.scan : ∀ {c : Bool} {us : List Token} {es : List (Expr Position)}, Row c us es →
    ∀ (s : Scan) (outer : List Enclosing) (rest : List Token),
      (c = true → s.Takes es.length) → (∀ t ∈ rest.head?, t.form ≠ .mark .colon) →
      ∃ s', alternates false s outer (us ++ rest) = alternates (endsInName us) s' outer rest ∧
        s.After c es.length s'
  | _, _, _, .nil, s, outer, rest, _, _ =>
    ⟨s, rfl, by simp [Scan.total], fun _ => by simp [Scan.add], nofun⟩
  | _, _, _, .literal hrow hv, s, outer, rest, _, _ => by
    obtain ⟨s', he, ha⟩ := hrow.scan s outer (_ :: rest) nofun (colon_ne_of_literal? hv)
    refine ⟨s'.add 1, ?_, by simpa using ha.add 1⟩
    rw [List.append_assoc, List.singleton_append, he, alternates_literal hv,
      endsInName_of_getLast? (by simp) (name_ne_of_literal? hv)]
  | _, _, _, @Row.name ts es text p typing a hrow hty, s, outer, rest, _, hc => by
    obtain ⟨s', he, ha⟩ := hrow.scan s outer (⟨.name text, p⟩ :: (typing ++ rest)) nofun (by simp)
    refine ⟨s'.add 1, ?_, by simpa using ha.add 1⟩
    rw [List.append_assoc, List.cons_append, he, alternates_name (typing?_append hty hc),
      endsInName_name hty]
  | _, _, _, @Row.index ts es text p opener inside closer parts offset hrow hcl hp ho, s, outer,
      rest, _, _ => by
    have hcl' := closing?_append hcl rest
    obtain ⟨s', he, ha⟩ := hrow.scan s outer
      (⟨.name text, p⟩ :: ⟨.mark .openBracket, opener⟩ :: (inside ++ [closer] ++ rest)) nofun
      (by simp)
    refine ⟨s'.add 1, ?_, by simpa using ha.add 1⟩
    have hend : endsInName (ts ++ ⟨.name text, p⟩ :: ⟨.mark .openBracket, opener⟩ ::
        (inside ++ [closer])) = false :=
      endsInName_enclosed ts (_ :: _ :: inside) (by simp [form_of_closing? hcl])
    rw [List.append_assoc, List.cons_append, List.cons_append, he,
      alternates_name (a := none) (by rfl), alternates_brackets hcl' hp, hend]
    simp [ho]
  | _, _, _, @Row.array ts es opener inside closer parts elements hrow hcl hp hps hn, s, outer,
      rest, _, _ => by
    have hcl' := closing?_append hcl rest
    obtain ⟨s', he, ha⟩ := hrow.scan s outer
      (⟨.mark .openBracket, opener⟩ :: (inside ++ [closer] ++ rest)) nofun (by simp)
    refine ⟨s'.add 1, ?_, by simpa using ha.add 1⟩
    have hend : endsInName (ts ++ ⟨.mark .openBracket, opener⟩ :: (inside ++ [closer])) =
        false := endsInName_enclosed ts (_ :: inside) (by simp [form_of_closing? hcl])
    have hindex : (endsInName ts && (offset? opener parts).isSome) = false := by
      cases hb : endsInName ts with
      | false => rfl
      | true => simp [hn hb]
    rw [List.append_assoc, List.cons_append, he, alternates_brackets hcl' hp, hend, hindex,
      hps.scan]
    simp
  | _, _, _, @Row.group ts es us fs p q hrow hrows, s, outer, rest, _, _ => by
    obtain ⟨s₁, he₁, h₁⟩ := hrow.scan s outer
      (⟨.mark .openParen, p⟩ :: (us ++ ⟨.mark .closeParen, q⟩ :: rest)) nofun (by simp)
    obtain ⟨s₂, n, he₂, hn, hcomplete⟩ := hrows.scan ⟨s₁, false, 0⟩ outer
      (⟨.mark .closeParen, q⟩ :: rest) (by simp)
    refine ⟨s₁.add fs.length, ?_, by simpa using h₁.add fs.length⟩
    have hend : endsInName (ts ++ ⟨.mark .openParen, p⟩ :: (us ++ [⟨.mark .closeParen, q⟩])) =
        false := endsInName_enclosed ts (_ :: us) (by simp)
    rw [hend, List.append_assoc, List.cons_append, List.append_assoc, List.singleton_append, he₁,
      alternates_openParen, he₂, alternates_closeParen, hcomplete]
    simp [Enclosing.close, hn]
  | _, _, _, @Row.call ts es text o us fs p q hrow hrows, s, outer, rest, _, _ => by
    obtain ⟨s₁, he₁, h₁⟩ := hrow.scan s outer
      (⟨.call text, o⟩ :: ⟨.mark .openParen, p⟩ :: (us ++ ⟨.mark .closeParen, q⟩ :: rest)) nofun
      (by simp)
    obtain ⟨s₂, n, he₂, hn, hcomplete⟩ := hrows.scan ⟨s₁, true, 0⟩ outer
      (⟨.mark .closeParen, q⟩ :: rest) (by simp)
    refine ⟨s₁.add 1, ?_, by simpa using h₁.add 1⟩
    have hend : endsInName (ts ++ ⟨.call text, o⟩ :: ⟨.mark .openParen, p⟩ ::
        (us ++ [⟨.mark .closeParen, q⟩])) = false :=
      endsInName_enclosed ts (_ :: _ :: us) (by simp)
    rw [hend, List.append_assoc, List.cons_append, List.cons_append, List.append_assoc,
      List.singleton_append, he₁, alternates_call, he₂, alternates_closeParen, hcomplete]
    simp [Enclosing.close]
  | _, _, _, @Row.sign ts es sign p us fs x hrow hrow', s, outer, rest, _, hc => by
    obtain ⟨s₁, he₁, h₁⟩ := hrow.scan s outer (⟨.sign sign, p⟩ :: (us ++ rest)) nofun (by simp)
    obtain ⟨s₂, he₂, h₂⟩ := hrow'.scan s₁.sign outer rest nofun hc
    refine ⟨s₂, ?_, ?_⟩
    · rw [List.append_assoc, List.cons_append, he₁, alternates_sign, he₂,
        endsInName_append_cons (by simp)]
    · simp only [List.length_append, List.length_singleton] at h₂ ⊢
      exact h₁.sign h₂
  | _, _, _, @Row.connective c d ts es l k p us r e hrow hrow' _, s, outer, rest, ht, hc => by
    have ht := ht rfl
    rw [List.length_append, List.length_singleton] at ht ⊢
    obtain ⟨s₁, he₁, h₁⟩ := hrow.scan s outer (⟨.connective k, p⟩ :: (us ++ rest))
      (fun _ => by rwa [List.length_append]) (by simp)
    obtain ⟨s₂, he₂, h₂⟩ := hrow'.scan ⟨s.total + es.length, 0, true, false⟩ outer rest
      (fun _ => Scan.takes_connective _) hc
    rw [List.length_append] at h₁
    refine ⟨s₂, ?_, h₂.operand⟩
    rw [List.append_assoc, List.cons_append, he₁, alternates_connective (h₁.connective? ht),
      he₂, endsInName_append_cons (by simp)]

theorem Rows.scan : ∀ {us : List Token} {es : List (Expr Position)}, Rows us es →
    ∀ (e : Enclosing) (outer : List Enclosing) (rest : List Token),
      (∀ t ∈ rest.head?, t.form ≠ .mark .colon) →
      ∃ s n, alternates false .start (e :: outer) (us ++ rest) =
          alternates (endsInName us) s ({ e with done := n } :: outer) rest ∧
        n + s.total = e.done + es.length ∧ s.isComplete = true
  | _, _, .single hrow, e, outer, rest, hc => by
    obtain ⟨s, he, h⟩ := hrow.scan .start (e :: outer) rest (fun _ => takes_start _) hc
    exact ⟨s, e.done, he, by rw [h.total, Scan.total_start, Nat.zero_add], h.isComplete⟩
  | _, _, @Rows.comma c ts es p us fs hrows hrow, e, outer, rest, hc => by
    obtain ⟨s₁, n, he₁, hn, hcomplete⟩ := hrows.scan e outer (⟨.mark .comma, p⟩ :: (us ++ rest))
      (by simp)
    obtain ⟨s₂, he₂, h₂⟩ := hrow.scan .start ({ e with done := n + s₁.total } :: outer) rest
      (fun _ => takes_start _) hc
    refine ⟨s₂, n + s₁.total, ?_, ?_, h₂.isComplete⟩
    · rw [List.append_assoc, List.cons_append, he₁, alternates_comma, hcomplete,
        endsInName_append_cons (by simp)]
      simpa [Enclosing.comma] using he₂
    · rw [h₂.total, hn, Scan.total_start, List.length_append]
      omega

theorem Parts.scan : ∀ {parts : List (List Token)} {es : List (Expr Position)},
    Parts parts es → partsAlternate parts = true
  | _, _, .nil => by rw [partsAlternate]
  | _, _, .cons hrow hparts => by
    obtain ⟨s, he, h⟩ := hrow.scan .start [] [] (fun _ => takes_start _) (by simp)
    rw [List.append_nil, alternates_nil, h.isComplete] at he
    rw [partsAlternate, he, hparts.scan]
    rfl
end

/-- In a line whose operators are in place, operands and operators alternate. -/
theorem alternates_of_inPlace {ts : List Token} {e : Expr Position} (h : InPlace ts e) :
    alternates false .start [] ts = true := by
  obtain ⟨c, h⟩ := h
  obtain ⟨s, he, h⟩ := h.scan .start [] [] (fun _ => takes_start _) (by simp)
  rw [List.append_nil, alternates_nil, h.isComplete] at he
  exact he

end AlgoFrontEnd.Grammar
