import AlgoFrontEnd.Proofs.Scope.Bindings

/-! Levels with more functions, and with those of before at other positions. -/
namespace AlgoFrontEnd

/-- The second list is the first under a map, with new entries in one place. -/
inductive Widened {α : Type} (m : α → α) (new : List α) : List α → List α → Prop where
  | here (xs : List α) : Widened m new xs (new ++ xs.map m)
  | later (x : α) {xs ys : List α} (h : Widened m new xs ys) : Widened m new (x :: xs) (m x :: ys)

namespace Widened
variable {α : Type} {m : α → α} {new xs ys : List α}

theorem nil_iff : Widened m [] xs ys ↔ ys = xs.map m := by
  constructor
  · intro h
    induction h with
    | here xs => rfl
    | later x _ ih => rw [List.map_cons, ih]
  · rintro rfl
    exact .here xs

theorem append (h : Widened m new xs ys) (zs : List α) :
    Widened m new (xs ++ zs) (ys ++ zs.map m) := by
  induction h with
  | here xs =>
    rw [List.append_assoc, ← List.map_append]
    exact .here (xs ++ zs)
  | later x _ ih => exact .later x ih

/-- New entries may come behind all others. -/
theorem add (h : Widened m [] xs ys) (new : List α) : Widened m new xs (ys ++ new) := by
  obtain rfl := nil_iff.mp h
  clear h
  induction xs with
  | nil =>
    have h : Widened m new [] (new ++ [].map m) := .here []
    simpa using h
  | cons x xs ih => exact .later x ih

theorem split (h : Widened m new xs ys) :
    ∃ before after, xs = before ++ after ∧ ys = before.map m ++ new ++ after.map m := by
  induction h with
  | here xs => exact ⟨[], xs, rfl, rfl⟩
  | later x _ ih =>
    obtain ⟨before, after, rfl, rfl⟩ := ih
    exact ⟨x :: before, after, rfl, rfl⟩

theorem find? (h : Widened m new xs ys) {q : α → Bool} (hm : ∀ x, q (m x) = q x)
    (hn : ∀ x ∈ new, q x = false) : ys.find? q = (xs.find? q).map m := by
  have hq : q ∘ m = q := funext hm
  induction h with
  | here xs =>
    have : new.find? q = none := by simpa using hn
    rw [List.find?_append, this, Option.none_or, List.find?_map, hq]
  | later x _ ih =>
    rw [List.find?_cons, List.find?_cons, hm, ih]
    split <;> rfl

theorem filter (h : Widened m new xs ys) {q : α → Bool} (hm : ∀ x, q (m x) = q x)
    (hn : ∀ x ∈ new, q x = false) : ys.filter q = (xs.filter q).map m := by
  have hq : q ∘ m = q := funext hm
  induction h with
  | here xs =>
    have : new.filter q = [] := by simpa using hn
    rw [List.filter_append, this, List.nil_append, List.filter_map, hq]
  | later x _ ih =>
    rw [List.filter_cons, List.filter_cons, hm, ih]
    split <;> rfl

/-- An entry that replaces none of the new ones comes into the same place. -/
theorem putEntry (h : Widened m new xs ys) {q : α → Bool} (hm : ∀ x, q (m x) = q x)
    (hn : ∀ x ∈ new, q x = false) (entry : α) :
    Widened m new (putEntry q entry xs) (AlgoFrontEnd.putEntry q (m entry) ys) := by
  have skip (zs : List α) : AlgoFrontEnd.putEntry q (m entry) (new ++ zs) =
      new ++ AlgoFrontEnd.putEntry q (m entry) zs := by
    clear h
    induction new with
    | nil => rfl
    | cons x new ih =>
      obtain ⟨hx, hn⟩ := List.forall_mem_cons.mp hn
      rw [List.cons_append, AlgoFrontEnd.putEntry, hx, ih hn]
      rfl
  have mapped (zs : List α) : AlgoFrontEnd.putEntry q (m entry) (zs.map m) =
      (AlgoFrontEnd.putEntry q entry zs).map m := by
    induction zs with
    | nil => rfl
    | cons z zs ih =>
      rw [List.map_cons, AlgoFrontEnd.putEntry, AlgoFrontEnd.putEntry, hm, ih]
      split <;> rfl
  induction h with
  | here xs =>
    rw [skip, mapped]
    exact .here _
  | @later x xs ys h ih =>
    rw [AlgoFrontEnd.putEntry, AlgoFrontEnd.putEntry, hm]
    split
    · exact .later entry h
    · exact .later x ih

end Widened

/-- The same function, first declared at another position. -/
def Symbol.move (f : Position → Position) (s : Symbol) : Symbol :=
  { s with position := s.position.map f }

namespace Level

/-- The level with other functions. -/
def hold (fs : List Symbol) (l : Level) : Level := { l with functions := fs }

/-- The functions are those of a level at other positions, and new ones of a signature that the
level has no function of. -/
structure Gains (f : Position → Position) (free : Option Signature) (new : List Symbol) (l : Level)
    (fs : List Symbol) : Prop where
  functions : Widened (Symbol.move f) new l.functions fs
  lacks : ∀ s ∈ free, l.function? s = none
  free : ∀ d ∈ new, d.signature ∈ free

namespace Gains
variable {f : Position → Position} {free : Option Signature} {new fs : List Symbol} {l : Level}
  {s : Signature}

/-- Nothing is new where there are no functions yet. -/
theorem of_nil (h : l.functions = []) : l.Gains f none [] l.functions := by
  refine ⟨?_, nofun, nofun⟩
  rw [h]
  exact .here []

theorem not_same (h : l.Gains f free new fs) (hs : ∀ t ∈ free, s.same t = false) :
    ∀ d ∈ new, d.signature.same s = false := by
  intro d hd
  rw [Bool.eq_false_iff]
  intro hds
  have := hs d.signature (h.free d hd)
  rw [same_symm hds] at this
  cases this

/-- A signature that no new function has is that of the function of before. -/
theorem function? (h : l.Gains f free new fs) (hs : ∀ d ∈ new, d.signature.same s = false) :
    (l.hold fs).function? s = (l.function? s).map (Symbol.move f) :=
  h.functions.find? (fun _ => rfl) hs

/-- The new functions are not found in place of another one. -/
theorem function?_of_some (h : l.Gains f free new fs) {symbol : Symbol}
    (hs : l.function? s = some symbol) : (l.hold fs).function? s = some (symbol.move f) := by
  rw [h.function? (h.not_same ?_), hs, Option.map_some]
  intro t ht
  rw [Bool.eq_false_iff]
  intro hst
  obtain ⟨hm, hsame⟩ := mem_of_function? hs
  have := not_same_of_function?_none (h.lacks t ht) hm
  rw [same_trans hsame hst] at this
  cases this

theorem register (h : l.Gains f free new fs) (symbol : Symbol)
    (hs : ∀ t ∈ free, symbol.signature.same t = false) :
    (l.register symbol).Gains f free new
      (putEntry (·.signature.same symbol.signature) (symbol.move f) fs) where
  functions := h.functions.putEntry (fun _ => rfl) (h.not_same hs) symbol
  lacks := by
    intro t ht
    refine List.find?_eq_none.mpr ?_
    intro g hg
    rw [Bool.not_eq_true]
    rcases mem_of_mem_register hg with rfl | hg
    · exact hs t ht
    · exact not_same_of_function?_none (h.lacks t ht) hg
  free := h.free

/-- A function of the free signature comes behind all others. -/
theorem register_free (h : l.Gains f free [] fs) {d : Symbol} (hd : d.signature ∈ free) :
    (l.hold fs).register d = l.hold (fs ++ [d]) ∧ l.Gains f free [d] (fs ++ [d]) := by
  have hn : (l.hold fs).function? d.signature = none := by
    rw [h.function? nofun, h.lacks _ hd, Option.map_none]
  have hfs : ∀ g ∈ fs, g.signature.same d.signature = false :=
    fun g hg => not_same_of_function?_none hn hg
  refine ⟨congrArg (l.hold ·) (putEntry_eq_append hfs), h.functions.add [d], h.lacks, ?_⟩
  intro g hg
  rwa [List.mem_singleton.mp hg]

theorem unimplemented (h : l.Gains f free new fs) (hn : ∀ d ∈ new, d.implemented = true) :
    (l.hold fs).unimplemented = l.unimplemented.map (Symbol.move f) := by
  refine h.functions.filter (fun _ => rfl) ?_
  intro d hd
  rw [hn d hd]
  rfl

end Gains
end Level
end AlgoFrontEnd
