import AlgoFrontEnd.Compilation
import AlgoFrontEnd.Proofs.Frame.Tiling
import AlgoFrontEnd.Proofs.Resolution.Linking

/-! Compilations stage by stage: when one succeeds, each stage has succeeded on what the one before
it has found, and when one fails, it fails in its lexer, in its parser or in resolution. -/
namespace AlgoFrontEnd

namespace Logged
variable {α β : Type}

theorem result_andThen (x : Logged α) (next : α → Logged β) :
    (x.andThen next).result = x.result >>= fun a => (next a).result := by
  obtain ⟨log, result⟩ := x
  cases result <;> rfl

theorem result_telling (result : Except Failure α) (event : α → Event) :
    (telling result event).result = result := by
  cases result <;> rfl

theorem andThen_eq_ok {x : Logged α} {next : α → Logged β} {b : β} :
    (x.andThen next).result = .ok b ↔ ∃ a, x.result = .ok a ∧ (next a).result = .ok b := by
  obtain ⟨log, result⟩ := x
  cases result <;> simp [andThen]

theorem telling_eq_ok {result : Except Failure α} {event : α → Event} {a : α} :
    (telling result event).result = .ok a ↔ result = .ok a := by
  cases result <;> simp [telling]

end Logged

namespace Source
variable {file entry : String} {lines : List String}

theorem tokens_ok {ts : List Token} (h : tokens file lines = .ok ts) :
    Token.ofLines lines = .ok ts := by
  unfold tokens at h
  split at h <;> cases h
  assumption

theorem program_ok {ts : List Token} {p : Program Position} (h : program file lines ts = .ok p) :
    Grammar.program ts = .ok p :=
  mapError_eq_ok.mp h

theorem resolve_ok {p : Program Position} {r : Resolution.Result}
    (h : (resolve file entry lines p).result = .ok r) :
    ∃ log, Resolution.program entry p = .ok (r, log) := by
  unfold resolve at h
  split at h <;> cases h
  exact ⟨_, ‹_›⟩

/-- There are frames exactly if the options ask for them. -/
theorem layOut_ok {options : Options} {rs : List Routine} {table : FrameTable}
    (h : (layOut file lines options rs).result = .ok table) :
    (options.layout = true → ∃ events, FrameTable.ofRoutines rs = .ok (table, events)) ∧
    (options.layout = false → table = ⟨[]⟩) := by
  unfold layOut at h
  split at h
  · rename_i hl
    split at h <;> cases h
    exact ⟨fun _ => ⟨_, ‹_›⟩, by simp [hl]⟩
  · rename_i hl
    cases h
    exact ⟨fun ht => absurd ht hl, fun _ => rfl⟩

end Source

/-- A compilation holds the program that its lines spell, the result of resolving it and the
frames of that result. -/
theorem compileLines_ok {options : Options} {file : String} {lines : List String} {c : Compilation}
    (h : (compileLines options file lines).result = .ok c) :
    Resolution.Resolves options.entry lines c.program ⟨c.routines, c.externals⟩ ∧
    (Source.layOut file lines options c.routines).result = .ok c.frames := by
  simp only [compileLines, Logged.andThen_eq_ok, Logged.telling_eq_ok] at h
  obtain ⟨ts, ht, p, hp, r, hr, frames, hf, h⟩ := h
  cases h
  obtain ⟨log, hr⟩ := Source.resolve_ok hr
  exact ⟨⟨ts, log, Source.tokens_ok ht, Source.program_ok hp, hr⟩, hf⟩

theorem compiles_of_any (options : Options) (file text : String) (holds : Compilation → Bool)
    (h : (compileText options file text).result.toOption.any holds = true) :
    ∃ c, (compileText options file text).result = .ok c ∧ holds c = true := by
  obtain ⟨c, hc, hh⟩ := (Option.any_eq_true ..).mp h
  exact ⟨c, eq_ok_of_toOption hc, hh⟩

end AlgoFrontEnd
