import AlgoFrontEnd.Command.Run
import AlgoFrontEnd.Proofs.Text.Utf8

/-! Sources read from files. Main statement: a file is compiled as the text in it, whatever ends
the lines of this text. -/
namespace AlgoFrontEnd

namespace Text

/-! ### Line breaks -/

/-- A break other than a carriage return before a line feed. -/
theorem splitLines_break {c : Char} {rest : List Char} (hc : isLineBreak c = true)
    (h : ∀ more, c = '\r' → rest = '\n' :: more → False) :
    splitLines (c :: rest) = [] :: splitLines rest := by
  rw [splitLines, if_pos hc]
  exact h

/-- Behind any character but a carriage return, the lines count only. -/
theorem splitLines_cons_congr {c : Char} (hc : c ≠ '\r') {cs ds : List Char}
    (h : splitLines cs = splitLines ds) : splitLines (c :: cs) = splitLines (c :: ds) := by
  rw [splitLines, splitLines, h]
  · exact fun _ hr _ => hc hr
  · exact fun _ hr _ => hc hr

/-- Turning carriage returns into line feeds leaves the lines as they are. -/
theorem splitLines_foldNewlines (cs : List Char) :
    splitLines (foldNewlines cs) = splitLines cs := by
  -- The folding takes a carriage return and a line feed in one step, as the splitting does.
  induction cs using foldNewlines.induct with
  | case1 => rfl
  | case2 rest ih =>
    have hline : splitLines ('\n' :: foldNewlines rest) = [] :: splitLines (foldNewlines rest) :=
      splitLines_break rfl (fun _ h _ => absurd h (by decide))
    rw [foldNewlines, hline, ih, splitLines]
  | case3 c rest hno ih =>
    rw [foldNewlines]
    · by_cases hc : c = '\r'
      · subst hc
        rw [if_pos rfl, splitLines_break rfl hno, ← ih]
        exact splitLines_break rfl (fun _ h _ => absurd h (by decide))
      · rw [if_neg hc]
        exact splitLines_cons_congr hc ih
    · exact hno

theorem lines_foldNewlines (text : String) :
    lines (String.ofList (foldNewlines text.toList)) = lines text := by
  rw [lines, lines, String.toList_ofList, splitLines_foldNewlines]

end Text

/-! ### Files -/

/-- The bytes of a text are read as this text, up to carriage returns. -/
theorem sourceText_encode (text : String) :
    sourceText (Text.Utf8.encode text) = .ok (String.ofList (Text.foldNewlines text.toList)) := by
  rw [sourceText, Text.Utf8.decode_encode]

/-- A compilation depends on the lines of its text only. -/
theorem compileText_foldNewlines (options : Options) (file text : String) :
    compileText options file (String.ofList (Text.foldNewlines text.toList)) =
      compileText options file text := by
  rw [compileText, compileText, Text.lines_foldNewlines]

/-- So does everything that a run of the command shows or writes. -/
theorem Command.Job.product_foldNewlines (job : Job) (text : String) :
    job.product (String.ofList (Text.foldNewlines text.toList)) = job.product text := by
  simp only [product, Text.lines_foldNewlines, compileText_foldNewlines]

/-- A file that holds the bytes of a text is compiled as this text: with the same events, and into
the same tokens, program, functions and frames or the same failure. Both have the same lines, since
line feeds in place of carriage returns leave them as they are. The command does not tell a file
from the text in it either. -/
theorem file_compiled_as_text (look : String → Files.Entry) (options : Options)
    (path text : String) (h : look (Files.normalPath path) = .file (Text.Utf8.encode text)) :
    compileFile look options path = compileText options path text ∧
      Text.splitLines (Text.foldNewlines text.toList) = Text.splitLines text.toList ∧
      ∀ job : Command.Job, job.source = Text.Utf8.encode text →
        ∃ read, sourceText job.source = .ok read ∧ job.product read = job.product text := by
  refine ⟨?_, Text.splitLines_foldNewlines text.toList, ?_⟩
  · simp only [compileFile, h, sourceText_encode]
    exact compileText_foldNewlines options path text
  · intro job hjob
    rw [hjob]
    exact ⟨_, sourceText_encode text, job.product_foldNewlines text⟩

/-- A text whose lines end in a carriage return alone, one before a carriage return and a line
feed, and in a line separator. -/
def mixedText : String := "x <- \"é\"\r\r\ny <- 1\u2028z <- x\r"

theorem mixedText_compiled_as_text :
    compileFile (fun _ => .file (Text.Utf8.encode mixedText)) .default ".//mixed.algo" =
        compileText .default ".//mixed.algo" mixedText ∧
      (Text.lines mixedText).length = 4 ∧
      (compileText .default ".//mixed.algo" mixedText).result.toOption.isSome = true := by
  refine ⟨?_, by decide, by decide +kernel⟩
  exact (file_compiled_as_text _ .default ".//mixed.algo" mixedText rfl).1

end AlgoFrontEnd
