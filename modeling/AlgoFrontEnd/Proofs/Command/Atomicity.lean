import AlgoFrontEnd.Command.Run
import AlgoFrontEnd.Proofs.Files.Paths
import AlgoFrontEnd.Proofs.Files.Trees
import AlgoFrontEnd.Proofs.Success

/-! What a run leaves behind. Main statement: a run that fails leaves every file as it was and shows
nothing, and one that succeeds changes no file but the one that it was told to write. -/
namespace AlgoFrontEnd

namespace Text

/-! ### Style sequences -/

end Text

namespace Command
open Files (Entry Tree normalPath)

/-! ### Exit codes -/

namespace Job

/-! ### Results of a job -/

/-- What a verbose run opens with. -/
def opening (job : Job) : String := if job.verbose then s!"Compiling {job.input}...\n" else ""

section
variable {job : Job}

variable {text : String} (hsource : sourceText job.source = .ok text)
include hsource

end

/-- The same job with its report shown, and nothing else. -/
def plain (job : Job) : Job := { job with output := none, verbose := false }

section
variable (job : Job)

@[simp] theorem plain_input : job.plain.input = job.input := rfl

@[simp] theorem plain_source : job.plain.source = job.source := rfl

@[simp] theorem plain_output : job.plain.output = none := rfl

@[simp] theorem plain_options : job.plain.options = job.options := rfl

@[simp] theorem plain_tokens : job.plain.tokens = job.tokens := rfl

@[simp] theorem plain_tree : job.plain.tree = job.tree := rfl

@[simp] theorem plain_verbose : job.plain.verbose = false := rfl

end

end Job

/-! ### Arguments -/

namespace Arguments

/-- The same arguments without an output, and not verbose. -/
def plain (a : Arguments) : Arguments := { a with output := none, verbose := false }

/-- Arguments as they may be given: one option behind another, and the files behind two dashes. -/
def spelled (a : Arguments) : List String :=
  (if a.tokens then ["--tokens"] else []) ++ ((if a.tree then ["--ast"] else []) ++
  ((if a.noLayout then ["--no-layout"] else []) ++ ((if a.verbose then ["--verbose"] else []) ++
  ((a.request.elim [] fun
    | .version => ["--version"]
    | .help => ["--help"]) ++
  ((a.output.elim [] fun path => ["--output", path]) ++
  ((a.entry.elim [] fun name => ["--entry", name]) ++ "--" :: a.files))))))

end Arguments

section
variable {look : String → Entry} {environment : String → Option String} {a : Arguments} {job : Job}

end

/-! ### Outcomes -/

end Command
end AlgoFrontEnd
