import AlgoFrontEnd.Token.Piece
import Mathlib.Data.List.TakeWhile

/-! Pieces of a line against its characters. Main statement: a line is cut into exactly the pieces
that it is written in, each as long as possible and with nothing but blanks between them. -/
namespace AlgoFrontEnd.Token

/-- Characters between pieces. -/
def Gap (cs : List Char) : Prop := ∀ c ∈ cs, Text.isBlank c = true

/-- What follows a run does not go on with it. -/
def Ends (continues : Char → Bool) (rest : List Char) : Prop :=
  ∀ c ∈ rest.head?, continues c = false

/-- The characters that a piece is written in, in view of what follows it. -/
inductive Piece.Written : Piece → List Char → List Char → Prop
  | word {c : Char} {more rest : List Char} (hc : isNameStart c = true)
      (hm : ∀ x ∈ more, isNameChar x = true) (hr : Ends isNameChar rest) :
      Written (.word (c :: more)) (c :: more) rest
  | operators {c : Char} {more rest : List Char} (hc : isOperatorChar c = true)
      (hm : ∀ x ∈ more, isOperatorChar x = true) (hr : Ends isOperatorChar rest) :
      Written (.operators (c :: more)) (c :: more) rest
  | numeral {c : Char} {more rest : List Char} (hc : isNumeralChar c = true)
      (hm : ∀ x ∈ more, isNumeralChar x = true) (hr : Ends isNumeralChar rest) :
      Written (.numeral (c :: more)) (c :: more) rest
  | quoted {inside rest : List Char} (hi : '"' ∉ inside) :
      Written (.quoted inside) ('"' :: (inside ++ ['"'])) rest
  | mark {rest : List Char} (m : Mark) : Written (.mark m) [m.char] rest

/-- Pieces that characters are written in from a column on. -/
inductive Cuts : Nat → List Char → List Placed → Prop
  | nil (column : Nat) : Cuts column [] []
  | blank {column : Nat} {c : Char} {rest : List Char} {ps : List Placed}
      (hc : Text.isBlank c = true) (h : Cuts (column + 1) rest ps) : Cuts column (c :: rest) ps
  | piece {column next : Nat} {p : Piece} {span rest : List Char} {ps : List Placed}
      (hp : p.Written span rest) (hn : column + span.length = next) (h : Cuts next rest ps) :
      Cuts column (span ++ rest) (⟨column, p⟩ :: ps)

/-! ### Classes of characters -/

theorem ascii_forall {P : Char → Prop} (h : ∀ n < 128, P (Char.ofNat n)) {c : Char}
    (hc : c.toNat < 128) : P c := by
  have := h c.toNat hc
  rwa [Char.ofNat_toNat] at this

theorem ascii_of_isNameStart {c : Char} (h : isNameStart c = true) : c.toNat < 128 := by
  change (decide (c.val ≥ 'A'.val ∧ c.val ≤ 'Z'.val) ||
    (decide (c.val ≥ 'a'.val) && decide (c.val ≤ 'z'.val)) || decide (c = '_')) = true at h
  simp only [Bool.or_eq_true, Bool.and_eq_true, decide_eq_true_eq, UInt32.le_iff_toNat_le,
    ge_iff_le] at h
  have : c.toNat = c.val.toNat := rfl
  rcases h with (h | h) | rfl
  · have : 'Z'.val.toNat = 90 := rfl
    omega
  · have : 'z'.val.toNat = 122 := rfl
    omega
  · decide

theorem ascii_of_isNumeralChar {c : Char} (h : isNumeralChar c = true) : c.toNat < 128 := by
  simp only [isNumeralChar, Char.isDigit, Bool.or_eq_true, Bool.and_eq_true, decide_eq_true_eq,
    UInt32.le_iff_toNat_le] at h
  have : c.toNat = c.val.toNat := rfl
  rcases h with h | rfl
  · have : '9'.val.toNat = 57 := rfl
    omega
  · decide

theorem ascii_of_isOperatorChar {c : Char} (h : isOperatorChar c = true) : c.toNat < 128 := by
  have all : ("+-*/%<>=!".toList.all fun x => x.toNat < 128) = true := by decide
  exact of_decide_eq_true (List.all_eq_true.mp all c (List.contains_iff_mem.mp h))

theorem run?_operators {c : Char} (h : isOperatorChar c = true) :
    run? c = some (.operators, isOperatorChar) := by
  simp [run?, h]

theorem run?_numeral {c : Char} (h : isNumeralChar c = true) :
    run? c = some (.numeral, isNumeralChar) := by
  have ho : isOperatorChar c = false :=
    ascii_forall (P := fun c => isNumeralChar c = true → isOperatorChar c = false)
      (by decide +kernel) (ascii_of_isNumeralChar h) h
  simp [run?, h, ho]

theorem run?_word {c : Char} (h : isNameStart c = true) : run? c = some (.word, isNameChar) := by
  have hn : isOperatorChar c = false ∧ isNumeralChar c = false :=
    ascii_forall (P := fun c => isNameStart c = true →
      isOperatorChar c = false ∧ isNumeralChar c = false)
      (by decide +kernel) (ascii_of_isNameStart h) h
  simp [run?, h, hn]

theorem ascii_of_run? {c : Char} (h : (run? c).isSome = true) : c.toNat < 128 := by
  unfold run? at h
  split at h
  · exact ascii_of_isOperatorChar ‹_›
  split at h
  · exact ascii_of_isNumeralChar ‹_›
  split at h
  · exact ascii_of_isNameStart ‹_›
  · cases h

/-- The beginning of a run is no blank, no quote and no mark. -/
theorem apart_of_run? {c : Char} {r : (List Char → Piece) × (Char → Bool)} (h : run? c = some r) :
    Text.isBlank c = false ∧ c ≠ '"' ∧ Mark.ofChar? c = none := by
  have hs : (run? c).isSome = true := by rw [h]; rfl
  exact ascii_forall (P := fun c => (run? c).isSome = true →
    Text.isBlank c = false ∧ c ≠ '"' ∧ Mark.ofChar? c = none)
    (by decide +kernel) (ascii_of_run? hs) hs

/-- A letter or digit is no operator and no blank. -/
theorem apart_of_isNameChar {c : Char} (h : isNameChar c = true) :
    isOperatorChar c = false ∧ Text.isBlank c = false := by
  have hascii : c.toNat < 128 := by
    simp only [isNameChar, Char.isAlphanum, Bool.or_eq_true] at h
    rcases h with (ha | hd) | hl
    · exact ascii_of_isNameStart (by simp [isNameStart, ha])
    · exact ascii_of_isNumeralChar (by simp [isNumeralChar, hd])
    · exact ascii_of_isNameStart (by simp [isNameStart, of_decide_eq_true hl])
  exact ascii_forall (P := fun c => isNameChar c = true →
    isOperatorChar c = false ∧ Text.isBlank c = false) (by decide +kernel) hascii h

theorem ofChar?_char (m : Mark) : Mark.ofChar? m.char = some m := by
  cases m <;> rfl

theorem char_of_ofChar? {c : Char} {m : Mark} (h : Mark.ofChar? c = some m) : m.char = c := by
  simpa using List.find?_some h

theorem isBlank_char (m : Mark) : Text.isBlank m.char = false := by
  cases m <;> rfl

theorem char_ne_quote (m : Mark) : m.char ≠ '"' := by
  cases m <;> decide

/-! ### Runs -/

theorem takeWhile_eq_of_ends {p : Char → Bool} {xs rest : List Char} (hx : ∀ x ∈ xs, p x = true)
    (hr : Ends p rest) : (xs ++ rest).takeWhile p = xs ∧ (xs ++ rest).dropWhile p = rest := by
  rw [List.takeWhile_append_of_pos hx, List.dropWhile_append_of_pos hx]
  cases rest with
  | nil => simp
  | cons c rest =>
    have := hr c rfl
    simp [this]

theorem ends_dropWhile (p : Char → Bool) (rest : List Char) : Ends p (rest.dropWhile p) := by
  intro c hc
  have := List.head?_dropWhile_not p rest
  rw [hc] at this
  exact this

/-- A run that begins with a character is written in it and whatever continues it. -/
theorem written_of_run? {c : Char} {piece : List Char → Piece} {continues : Char → Bool}
    (h : run? c = some (piece, continues)) {more rest : List Char}
    (hm : ∀ x ∈ more, continues x = true) (hr : Ends continues rest) :
    (piece (c :: more)).Written (c :: more) rest := by
  unfold run? at h
  split at h
  · cases h
    exact .operators ‹_› hm hr
  split at h
  · cases h
    exact .numeral ‹_› hm hr
  split at h
  · cases h
    exact .word ‹_› hm hr
  · cases h

theorem cut_nil (column : Nat) : cut column [] = ⟨[], none⟩ := by
  rw [cut]

/-- A piece is told by its first character: a blank is none, and a quote, a mark and a run go on
as far as they can. -/
theorem cut_cons (column : Nat) (c : Char) (rest : List Char) :
    cut column (c :: rest) =
      if Text.isBlank c then cut (column + 1) rest
      else if c = '"' then
        match rest.dropWhile (· ≠ '"') with
        | [] => ⟨[], some (.openQuote column)⟩
        | _ :: after =>
          let inside := rest.takeWhile (· ≠ '"')
          let following := cut (column + inside.length + 2) after
          { following with pieces := ⟨column, .quoted inside⟩ :: following.pieces }
      else match Mark.ofChar? c with
        | some m =>
          let following := cut (column + 1) rest
          { following with pieces := ⟨column, .mark m⟩ :: following.pieces }
        | none => match run? c with
          | some (piece, continues) =>
            let more := rest.takeWhile continues
            let next := column + 1 + more.length
            (cut next (rest.dropWhile continues)).prepend ⟨column, piece (c :: more)⟩ next
          | none => ⟨[], some (.strayCharacter c column)⟩ := by
  rw [cut]
  split
  · rfl
  split
  · split
    all_goals
      rename_i hd
      rw [hd]
  · rfl

theorem cut_run {c : Char} {piece : List Char → Piece} {continues : Char → Bool}
    (h : run? c = some (piece, continues)) {more rest : List Char}
    (hm : ∀ x ∈ more, continues x = true) (hr : Ends continues rest) (column : Nat) :
    cut column (c :: (more ++ rest)) = (cut (column + 1 + more.length) rest).prepend
      ⟨column, piece (c :: more)⟩ (column + 1 + more.length) := by
  obtain ⟨hb, hq, ho⟩ := apart_of_run? h
  obtain ⟨ht, hd⟩ := takeWhile_eq_of_ends hm hr
  rw [cut_cons]
  simp [hb, hq, ho, h, ht, hd]

theorem cut_quoted {inside : List Char} (hi : '"' ∉ inside) (rest : List Char) (column : Nat) :
    cut column ('"' :: (inside ++ '"' :: rest)) =
      ⟨⟨column, .quoted inside⟩ :: (cut (column + inside.length + 2) rest).pieces,
        (cut (column + inside.length + 2) rest).stop⟩ := by
  have hx : ∀ x ∈ inside, decide (x ≠ '"') = true := by
    intro x hx
    simpa using ne_of_mem_of_not_mem hx hi
  have he : Ends (fun x => decide (x ≠ '"')) ('"' :: rest) := by simp [Ends]
  obtain ⟨ht, hd⟩ := takeWhile_eq_of_ends hx he
  have hb : Text.isBlank '"' = false := rfl
  rw [cut_cons]
  simp only [hb, Bool.false_eq_true, if_false, if_true, ht, hd]

theorem cut_mark (m : Mark) (rest : List Char) (column : Nat) :
    cut column (m.char :: rest) =
      ⟨⟨column, .mark m⟩ :: (cut (column + 1) rest).pieces, (cut (column + 1) rest).stop⟩ := by
  rw [cut_cons]
  simp [isBlank_char, char_ne_quote, ofChar?_char]

/-! ### Lines -/

/-- If nothing stopped the cutting behind a run, the run was taken. -/
theorem prepend_of_stop_none {c : Cut} {run : Placed} {next : Nat}
    (h : (c.prepend run next).stop = none) :
    c.stop = none ∧ (c.prepend run next).pieces = run :: c.pieces := by
  obtain ⟨ps, stop⟩ := c
  unfold Cut.prepend at h ⊢
  split
  · rename_i x column hs
    cases hs
    simp only at h
    split at h <;> cases h
  · cases stop <;> simp_all

theorem cuts_of_cut {column : Nat} {cs : List Char} (h : (cut column cs).stop = none) :
    Cuts column cs (cut column cs).pieces := by
  fun_induction cut column cs with
  | case1 column => exact .nil column
  | case2 column c rest hb ih => exact .blank hb (ih h)
  | case3 => cases h
  | case4 column rest q after hd inside hb following ih =>
    have hi : '"' ∉ inside := by
      intro hm
      simpa using List.mem_takeWhile_imp hm
    have hq : q = '"' := by
      have := ends_dropWhile (· ≠ '"') rest q (by rw [hd]; rfl)
      simpa using this
    have hrest : rest = inside ++ '"' :: after := by
      rw [← hq, ← hd]
      exact List.takeWhile_append_dropWhile.symm
    have : Cuts column _ _ := .piece (.quoted hi) (by simp; omega) (ih h)
    rw [List.cons_append, List.append_assoc, List.singleton_append] at this
    rw [hrest]
    exact this
  | case5 column c rest hb hq m hm following ih =>
    have := Cuts.piece (.mark m) rfl (ih h)
    rwa [char_of_ofChar? hm] at this
  | case6 column c rest hb hq ho piece continues hr more next ih =>
    obtain ⟨hs, hp⟩ := prepend_of_stop_none h
    have hm : ∀ x ∈ more, continues x = true := fun x hx => List.mem_takeWhile_imp hx
    have hw := written_of_run? hr hm (ends_dropWhile continues rest)
    have : Cuts column _ _ := .piece hw (by simp [next]; omega) (ih hs)
    rw [hp]
    rwa [List.cons_append, List.takeWhile_append_dropWhile] at this
  | case7 => cases h

theorem Piece.Written.cut {p : Piece} {span rest : List Char} {ps : List Placed}
    {column next : Nat} (hp : p.Written span rest) (hn : column + span.length = next)
    (h : Token.cut next rest = ⟨ps, none⟩) :
    Token.cut column (span ++ rest) = ⟨⟨column, p⟩ :: ps, none⟩ := by
  -- a run is taken, since nothing stops the cutting behind it
  have run {c : Char} {more : List Char} {piece : List Char → Piece} {continues : Char → Bool}
      (hr : run? c = some (piece, continues)) (hm : ∀ x ∈ more, continues x = true)
      (he : Ends continues rest) (hn : column + (c :: more).length = next) :
      Token.cut column (c :: more ++ rest) = ⟨⟨column, piece (c :: more)⟩ :: ps, none⟩ := by
    have hlen : column + 1 + more.length = next := by
      rw [← hn, List.length_cons]
      omega
    rw [List.cons_append, cut_run hr hm he, hlen, h]
    rfl
  cases hp with
  | word hc hm hr => exact run (run?_word hc) hm hr hn
  | operators hc hm hr => exact run (run?_operators hc) hm hr hn
  | numeral hc hm hr => exact run (run?_numeral hc) hm hr hn
  | @quoted inside _ hi =>
    have hlen : column + inside.length + 2 = next := by
      simp at hn
      omega
    rw [List.cons_append, List.append_assoc, List.singleton_append, cut_quoted hi, hlen, h]
  | mark m =>
    rw [List.length_singleton] at hn
    rw [List.singleton_append, cut_mark, hn, h]

/-- A line is cut without a stop into exactly the pieces that it is written in. -/
theorem cut_eq_iff {column : Nat} {cs : List Char} {ps : List Placed} :
    cut column cs = ⟨ps, none⟩ ↔ Cuts column cs ps := by
  constructor
  · intro h
    have hs : (cut column cs).stop = none := by rw [h]
    have := cuts_of_cut hs
    rwa [h] at this
  · intro h
    induction h with
    | nil column => rw [cut_nil]
    | blank hc h ih =>
      rw [cut_cons, if_pos hc]
      exact ih
    | piece hp hn h ih => exact hp.cut hn ih

end AlgoFrontEnd.Token
