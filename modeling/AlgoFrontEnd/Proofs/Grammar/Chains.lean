import AlgoFrontEnd.Proofs.Grammar.Alternation

/-! Operators that wait for their operands while a row is read, and what applying them leaves. -/
namespace AlgoFrontEnd.Grammar
open Token (Form)

/-- Values in source order as they lie on the stack. -/
def items (es : List (Expr Position)) : List Item := es.reverse.map .value

@[simp] theorem items_nil : items [] = [] := rfl

theorem items_append (es fs : List (Expr Position)) : items (es ++ fs) = items fs ++ items es := by
  simp [items]

theorem items_concat (es : List (Expr Position)) (e : Expr Position) :
    items (es ++ [e]) = .value e :: items es := by
  simp [items]

/-- A connective that is applied has the value `applied?` gives it. -/
theorem reduce_connective {k : Connective} {p : Position} {l r : Expr Position}
    {below output : List Item}
    (h : Yard.reduce (.value r :: .value l :: below) (.connective k p) = .ok output) :
    ∃ e, applied? k p l r = some e ∧ output = .value e :: below := by
  simp only [Yard.reduce] at h
  split at h
  · cases h
    exact ⟨_, rfl, rfl⟩
  · cases h
    exact ⟨_, rfl, rfl⟩
  · exact absurd h fault_ne_ok

/-- A reduction stops only at what does not yield. -/
theorem reduceWhile_head {yields : Nat → Bool} {output : List Item} {pending : List Pending}
    {z : Yard} (h : Yard.reduceWhile yields output pending = .ok z) :
    ∀ top ∈ z.pending.head?, ∀ p ∈ top.precedence?, yields p = false := by
  induction pending generalizing output with
  | nil =>
    cases h
    simp
  | cons top pending ih =>
    rw [Yard.reduceWhile] at h
    split at h
    · split at h
      · obtain ⟨output', -, h⟩ := bind_eq_ok.1 h
        exact ih h
      · cases h
        simp_all
    · cases h
      simp_all

/-- Connectives that wait with the values around them. Each has values in front of it, and just one
of them stands between it and the connective before. The last argument counts the values behind
the newest connective. -/
inductive Chain : Bool → List Token → List (Expr Position) → List Pending → Nat → Prop
  | row {c us es} : Row c us es → Chain c us es [] es.length
  | connective {b d us es l ops n ws xs} (k : Connective) (p : Position) :
      Chain b us (es ++ [l]) ops n → 1 ≤ n → (ops ≠ [] → n = 1) → Row d ws xs →
      Chain d (us ++ ⟨.connective k, p⟩ :: ws) (es ++ l :: xs) (.connective k p :: ops) xs.length

/-- A row that has been read up to some token, and what the scan knows of it. -/
inductive Open : List Token → List (Expr Position) → List Pending → Scan → Prop
  | row {us es} : Row false us es → Open us es [] ⟨0, es.length, false, false⟩
  | connective {b us es l ops n ws xs} (k : Connective) (p : Position) :
      Chain b us (es ++ [l]) ops n → 1 ≤ n → (ops ≠ [] → n = 1) → Row false ws xs →
      Open (us ++ ⟨.connective k, p⟩ :: ws) (es ++ l :: xs) (.connective k p :: ops)
        ⟨es.length - ops.length, xs.length, true, false⟩
  | sign {us es ops s ws xs} (sg : Sign) (p : Position) : Open us es ops s → Row false ws xs →
      Open (us ++ ⟨.sign sg, p⟩ :: ws) (es ++ xs) (.sign sg p :: ops) (s.sign.add xs.length)

namespace Chain

theorem length_le {c : Bool} {us : List Token} {es : List (Expr Position)} {ops : List Pending}
    {n : Nat} (h : Chain c us es ops n) : ops.length + n ≤ es.length := by
  induction h with
  | row _ => simp
  | connective _ _ _ hn _ _ ih =>
    simp only [List.length_append, List.length_cons, List.length_nil] at ih ⊢
    omega

/-- The newest connective takes the value in front of it and the one behind it. -/
theorem apply {b d : Bool} {us ws : List Token} {es : List (Expr Position)} {l r e : Expr Position}
    {ops : List Pending} {n : Nat} {k : Connective} {p : Position}
    (h : Chain b us (es ++ [l]) ops n) (hn : 1 ≤ n)
    (ho : ops ≠ [] → n = 1) (hr : Row d ws [r]) (he : applied? k p l r = some e) :
    Chain true (us ++ ⟨.connective k, p⟩ :: ws) (es ++ [e]) ops n := by
  generalize hes : es ++ [l] = fs at h
  cases h with
  | row hrow =>
    subst hes
    have := Chain.row (hrow.connective hr he)
    simpa using this
  | @connective b' _ us' es' l' ops' n' ws' xs k' p' hc hn' ho' hrow =>
    obtain ⟨x, hx⟩ := List.length_eq_one_iff.1 (ho (by simp))
    subst hx
    have hes' : es ++ [l] = (es' ++ [l']) ++ [x] := by simpa using hes
    obtain ⟨rfl, hl⟩ := List.append_inj' hes' rfl
    cases hl
    have hrow' : Row true (ws' ++ ⟨.connective k, p⟩ :: ws) [e] := by
      simpa using (show Row _ _ ([] ++ [_]) from hrow).connective hr he
    have := Chain.connective k' p' hc hn' ho' hrow'
    simpa using this

/-- What applying operators leaves of a chain whose operands have all been read. -/
inductive Leaves (us : List Token) (n total : Nat) (below : List Item) (stop : List Pending) :
    Yard → Prop
  | chain {c es ops m} : Chain c us es ops m → es.length = ops.length + total →
      (ops ≠ [] → m = 1) → (1 ≤ n → 1 ≤ m) →
      Leaves us n total below stop ⟨items es ++ below, ops ++ stop⟩

theorem reduceWhile {c : Bool} {us : List Token} {es : List (Expr Position)} {ops : List Pending}
    {n total : Nat} (h : Chain c us es ops n) (hl : es.length = ops.length + total)
    (ho : ops ≠ [] → n = 1) {below : List Item} {stop : List Pending}
    (hs : ∀ top ∈ stop.head?, top.precedence? = none) {yields : Nat → Bool} {z : Yard}
    (hz : Yard.reduceWhile yields (items es ++ below) (ops ++ stop) = .ok z) :
    Leaves us n total below stop z := by
  induction ops generalizing c us es n with
  | nil =>
    rw [List.nil_append, reduceWhile_eq_self _ fun top ht p hp => by simp [hs top ht] at hp] at hz
    cases hz
    exact .chain h hl ho id
  | cons top ops ih =>
    cases h with
    | @connective b _ us es l _ n ws xs k p hc hn ho' hrow =>
      obtain ⟨r, hr⟩ := List.length_eq_one_iff.1 (ho (by simp))
      subst hr
      rw [List.cons_append, Yard.reduceWhile] at hz
      simp only [Pending.precedence?] at hz
      split at hz
      · obtain ⟨output, hred, hz⟩ := bind_eq_ok.1 hz
        have hi : items (es ++ l :: [r]) ++ below =
            .value r :: .value l :: (items es ++ below) := by
          simp [items]
        rw [hi] at hred
        obtain ⟨e, he, rfl⟩ := reduce_connective hred
        rw [← List.cons_append, ← items_concat] at hz
        simp only [List.length_append, List.length_cons, List.length_nil] at hl
        have hl' : (es ++ [e]).length = ops.length + total := by
          simp only [List.length_append, List.length_cons, List.length_nil]
          omega
        obtain ⟨h', hl, ho, hn'⟩ := ih (hc.apply hn ho' hrow he) hl' ho' hz
        exact .chain h' hl ho fun _ => hn' hn
      · cases hz
        exact .chain (.connective k p hc hn ho' hrow) hl ho id

end Chain

namespace Open
variable {us : List Token} {es : List (Expr Position)} {ops : List Pending} {s : Scan}

/-- What can be put behind every row can be put behind the row that is being read. -/
theorem extend (vs : List Token) (ys : List (Expr Position)) (h : Open us es ops s)
    (hx : ∀ ts zs, Row false ts zs → (endsInName ts = true → endsInName us = true) →
      Row false (ts ++ vs) (zs ++ ys)) :
    Open (us ++ vs) (es ++ ys) ops (s.add ys.length) := by
  cases h with
  | row hrow =>
    have := Open.row (hx _ _ hrow id)
    simpa [Scan.add] using this
  | @connective _ us _ _ _ _ ws _ k p hc hn ho hrow =>
    have hx' := hx _ _ hrow (by rw [endsInName_append_cons (by simp)]; exact id)
    have := Open.connective k p hc hn ho hx'
    simpa [Scan.add] using this
  | @sign us _ _ _ ws _ sg p h hrow =>
    have hx' := hx _ _ hrow (by rw [endsInName_append_cons (by simp)]; exact id)
    have := Open.sign sg p h hx'
    simpa [Scan.add_add] using this

/-- Behind its operand, a sign has the value that it takes. -/
theorem sign_apply {ws : List Token} {fs : List (Expr Position)} {x : Expr Position} {sg : Sign}
    {p : Position} (h : Open us es ops s) (hr : Row false ws (fs ++ [x])) :
    Open (us ++ ⟨.sign sg, p⟩ :: ws) (es ++ (fs ++ [.sign p sg x])) ops
      (s.sign.add (fs ++ [x]).length) := by
  have := h.extend (⟨.sign sg, p⟩ :: ws) (fs ++ [.sign p sg x]) fun _ _ hts _ => hts.sign hr
  simpa [Scan.add, Scan.sign] using this

/-- In a complete row, signs are applied before everything that waits behind them. -/
theorem reduceWhile (h : Open us es ops s) (hs : s.isComplete = true) {below : List Item}
    {stop : List Pending} (hstop : ∀ top ∈ stop.head?, top.precedence? = none)
    {yields : Nat → Bool} (hy : yields Sign.precedence = true) {z : Yard}
    (hz : Yard.reduceWhile yields (items es ++ below) (ops ++ stop) = .ok z) :
    Chain.Leaves us s.count s.total below stop z := by
  induction ops generalizing us es s with
  | nil =>
    cases h with
    | row hrow => exact Chain.reduceWhile (.row hrow) (by simp [Scan.total]) (by simp) hstop hz
  | cons top ops ih =>
    cases h with
    | @connective b us es l _ n ws xs k p hc hn ho hrow =>
      have hl := hc.length_le
      simp only [List.length_append, List.length_cons, List.length_nil] at hl
      have hone : xs.length = 1 := by simpa [Scan.isComplete] using hs
      refine Chain.reduceWhile (.connective k p hc hn ho hrow) ?_ (fun _ => hone) hstop hz
      simp only [List.length_append, List.length_cons, Scan.total]
      omega
    | @sign us es _ s ws xs sg p h hrow =>
      obtain rfl | ⟨fs, x, rfl⟩ := List.eq_nil_or_concat xs
      · simp [Scan.isComplete, Scan.add, Scan.sign] at hs
      rw [List.concat_eq_append] at hrow hs hz ⊢
      rw [List.cons_append, Yard.reduceWhile] at hz
      simp only [Pending.precedence?, hy, if_true] at hz
      obtain ⟨output, hred, hz⟩ := bind_eq_ok.1 hz
      rw [← List.append_assoc, items_concat, List.cons_append] at hred
      cases hred
      rw [← List.cons_append, ← items_concat, List.append_assoc] at hz
      exact ih (h.sign_apply hrow) hs hz

/-- Between parentheses or commas, all operators of a complete row are applied. -/
theorem settle (h : Open us es ops s) (hs : s.isComplete = true) {below : List Item}
    {stop : List Pending} (hstop : ∀ top ∈ stop.head?, top.precedence? = none) {z : Yard}
    (hz : Yard.settle ⟨items es ++ below, ops ++ stop⟩ = .ok z) :
    ∃ c fs, Row c us fs ∧ fs.length = s.total ∧ z = ⟨items fs ++ below, stop⟩ := by
  have hnone := reduceWhile_head hz
  cases h.reduceWhile hs hstop rfl hz with
  | chain hc hl _ _ =>
    cases hc with
    | row hrow => exact ⟨_, _, hrow, by simpa using hl, rfl⟩
    | connective => exact absurd (hnone _ rfl _ rfl) (by simp)

/-- A connective that finds a complete row with a value in it waits for its operand. -/
theorem pushOperator (h : Open us es ops s) {s' : Scan} (hs : s.connective? = some s')
    {k : Connective} {p : Position} {below : List Item} {stop : List Pending}
    (hstop : ∀ top ∈ stop.head?, top.precedence? = none) {z : Yard}
    (hz : Yard.pushOperator ⟨items es ++ below, ops ++ stop⟩ (.connective k p) = .ok z) :
    ∃ fs ops', Open (us ++ [⟨.connective k, p⟩]) fs ops' s' ∧
      z = ⟨items fs ++ below, ops' ++ stop⟩ := by
  obtain ⟨⟨hcomplete, hcount⟩, rfl⟩ : (s.isComplete = true ∧ 1 ≤ s.count) ∧
      ⟨s.total - 1, 0, true, false⟩ = s' := by
    simpa [Scan.connective?] using hs
  obtain ⟨y, hy, hz⟩ := bind_eq_ok.1 hz
  cases hz
  have hsign : decide (k.precedence ≤ Sign.precedence) = true :=
    decide_eq_true (Nat.le_of_lt k.precedence_lt_sign)
  cases h.reduceWhile hcomplete hstop hsign hy with
  | @chain _ es' ops' n hc hl ho hn =>
    have hn := hn hcount
    have hlen := hc.length_le
    obtain rfl | ⟨fs, x, rfl⟩ := List.eq_nil_or_concat es'
    · simp at hlen
      omega
    rw [List.concat_eq_append] at hc hl hlen ⊢
    simp only [List.length_append, List.length_singleton] at hl hlen
    have hopen := Open.connective k p hc hn ho .nil
    refine ⟨fs ++ [x], .connective k p :: ops', ?_, rfl⟩
    have : fs.length - ops'.length = s.total - 1 := by omega
    rwa [this] at hopen

end Open

end AlgoFrontEnd.Grammar
