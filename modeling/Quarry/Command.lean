import Quarry.Command.Arguments
import Quarry.Digest
import Quarry.Display
import Quarry.Location
import Quarry.Store.Table
import Quarry.Workspace.Intake

/-!
The command line: what a project keeps between runs, and what a run with some arguments prints and
keeps. A run that gets to its command saves a snapshot at the end, even if the command fails; only
one that shows the results of a search leaves what the project keeps as it was.
-/

namespace Quarry

structure Project where
  settings : FileState
  table : TableStore
  snapshot : FileState

def Project.empty (settle : Row → List Row → List Row) : Project :=
  ⟨.absent, .empty settle, .absent⟩

inductive Printed where
  | line (t : Text)
  /-- A line that ends with the time that the run took. -/
  | timed (t : Text)

structure Output where
  out : List Printed
  err : List Text
  failed : Bool

namespace Command

def version : Text := "0.1.0"

def help : List Text :=
  ["",
    "  Local code indexing with BM25, boolean queries and hybrid rank fusion",
    "",
    "  Usage",
    "    $ hybridex index <file.jsonl>",
    "    $ hybridex search <query>",
    "    $ hybridex stats",
    "    $ hybridex rebuild",
    "",
    "  Options",
    "    --project   Project directory (default: current directory)",
    "    --mode      auto, symbol, fulltext, hybrid, bm25, semantic or fuzzy",
    "    --limit     Maximum number of results (default: 10)",
    "    --language  Only return documents in this language",
    "    --path      Only return documents whose path matches this glob",
    "    --snippets  Print an excerpt under each result",
    "    --help      Show help",
    "    --version   Show version",
    "",
    "  Examples",
    "    $ hybridex index parsed.jsonl",
    "    $ hybridex search 'parse* NOT test' --language typescript",
    "    $ hybridex search '\"returns bar\"' --mode fulltext --snippets",
    ""]

inductive Task where
  | index (file : Text)
  | search (query : Text) (a : Arguments)
  | stats
  | rebuild
  /-- A command line that asks for nothing that there is. -/
  | refused (message : Text)

inductive Plan where
  | help
  | version
  | unreadable (message : Text)
  | run (project : Option Text) (task : Task)

def taskOf (a : Arguments) : Task :=
  match a.words with
  | [] => .refused "Missing command"
  | command :: rest =>
    if command = ("index" : Text) then
      match rest with
      | file :: _ =>
        if file.isEmpty then .refused "Usage: hybridex index <file.jsonl>" else .index file
      | [] => .refused "Usage: hybridex index <file.jsonl>"
    else if command = ("search" : Text) then
      let query := Text.join [32] rest
      if query.trim.isEmpty then .refused "Usage: hybridex search <query>" else .search query a
    else if command = ("stats" : Text) then .stats
    else if command = ("rebuild" : Text) then .rebuild
    else if command.isEmpty then .refused "Missing command"
    else .refused (Text.concat ["Unknown command \"", command, "\""])

def plan (args : List Text) : Plan :=
  if args = [("--version" : Text)] then .version
  else match Arguments.read args with
    | .error message => .unreadable message
    | .ok a => if a.words.isEmpty then .help else .run a.project (taskOf a)

def linesOf (t : Text) : List Text := Text.splitAt 10 t

def printed (lines : List Text) : Output := ⟨lines.map .line, [], false⟩

def reportOf (f : Failure) : Text :=
  match f with
  | .query e => Text.concat ["Invalid query: ", e.message]
  | f => f.message

def failing (message : Text) : Output := ⟨[], linesOf message, true⟩

/-- What a task comes to. `file` is what stands at the path of the file that it names. -/
def perform (w : Workspace TableStore) (task : Task) (path : Text) (file : FileState) :
    Done TableStore (List Printed) :=
  let lines (d : Done TableStore (List Text)) : Done TableStore (List Printed) :=
    ⟨d.answer.map fun ls => ls.map .line, d.notes, d.workspace⟩
  match task with
  | .index _ =>
    match file.read path with
    | .error f => w.failed f
    | .ok content =>
      let d := w.takeLines content
      lines ⟨d.answer.map fun r => linesOf (Report.intake r), d.notes, d.workspace⟩
  | .search query a =>
    let call : Call := ⟨query, ⟨a.language, a.path⟩, some a.limit, .never⟩
    let d := w.searchNamed 0 a.mode call a.excerpts
    lines ⟨d.answer.map fun found => (Display.lines found).flatMap linesOf, d.notes, d.workspace⟩
  | .stats => lines (w.done (linesOf (Report.holdings (.ofStats w.stats "-"))))
  | .rebuild =>
    let d := w.rebuildAndSave
    ⟨d.answer.map fun t => [.timed t], d.notes, d.workspace⟩
  | .refused message => w.failed (.foreign (.fault ⟨"Error", message, none, none⟩))

/-- The settings of a project: the built-in ones if it has no file of them. -/
def settingsOf (path : Text) (state : FileState) : Except Failure Settings :=
  match state with
  | .absent => .ok .default
  | state => (state.read path).bind (Settings.ofFileText path)

/-- What a run gives: its output, its notes, and what the project keeps. -/
structure Run where
  output : Output
  notes : List Note
  project : Project

def outputOf (answer : Except Failure (List Printed)) : Output :=
  match answer with
  | .ok out => ⟨out, [], false⟩
  | .error f => failing (reportOf f)

def keep (p : Project) (w : Workspace TableStore) : Project :=
  { p with
    table := w.store
    snapshot := match w.snapshot with
      | some file => file.state
      | none => p.snapshot }

def Task.isShowing : Task → Bool
  | search _ _ => true
  | index _ | stats | rebuild | refused _ => false

/-- Ends a run after its task: a snapshot is saved and the table closed, unless results
are shown. -/
def conclude (p : Project) (task : Task) (d : Done TableStore (List Printed)) : Run :=
  if task.isShowing && d.answer.isOk then ⟨outputOf d.answer, d.notes, p⟩
  else
    let closed := d.workspace.close
    let output := match closed.answer with
      | .ok _ => outputOf d.answer
      | .error f => failing (reportOf f)
    ⟨output, d.notes ++ closed.notes, keep p closed.workspace⟩

def run (globs : GlobReader) (location : Location) (p : Project) (task : Task) (path : Text)
    (file : FileState) : Run :=
  match settingsOf location.settings p.settings with
  | .error f => ⟨failing (reportOf f), [], p⟩
  | .ok settings =>
    let w : Workspace TableStore := .new p.table.connect settings none (some .names)
      (some ⟨location.snapshot, p.snapshot⟩) Digest.ofText globs
    let loaded := w.load
    match loaded.answer with
    | .error f => ⟨failing (reportOf f), loaded.notes, keep p loaded.workspace⟩
    | .ok _ =>
      conclude p task ((perform loaded.workspace task path file).after loaded.notes)

end Command
end Quarry
