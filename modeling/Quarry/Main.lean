import Std.Time.DateTime.Timestamp
import Quarry.Command
import Quarry.Glob
import Quarry.Journal
import Quarry.Journal.Time

/-!
The program: it reads what a project keeps, runs the command line, prints, and writes what the
project keeps then.
-/

namespace Quarry.Main

def readState (path : String) : IO FileState := do
  try
    if ← (← IO.FS.realPath path).isDir then return .folder
    return .content (← IO.FS.readFile path)
  catch _ => return .absent

def writeFile (path content : String) : IO Unit := do
  IO.FS.writeFile (path ++ ".tmp") content
  IO.FS.rename (path ++ ".tmp") path

/-- Writes what stands at a path, if that is a file. -/
def writeState (path : Text) (state : FileState) : IO Unit :=
  match state with
  | .content t => writeFile path.toString t.toString
  | .absent | .folder => return

def tablePath (l : Location) : Text := Path.join [l.table, "documents.jsonl"]

def readProject (l : Location) : IO Project := do
  let table ← readState (tablePath l).toString
  return {
    settings := ← readState l.settings.toString
    table := match table with
      | .content t => .ofFileText TableStore.takeLast t
      | .absent | .folder => .empty TableStore.takeLast
    snapshot := ← readState l.snapshot.toString }

def writeProject (l : Location) (p : Project) : IO Unit := do
  IO.FS.createDirAll l.table.toString
  writeFile (tablePath l).toString p.table.fileText.toString
  writeState l.snapshot p.snapshot

def now : IO Nat := do
  return (← Std.Time.Timestamp.now).toMillisecondsSinceUnixEpoch.val.toNat

def writeNotes (l : Location) (notes : List Note) : IO Unit := do
  let time ← now
  match Journal.written .info (Journal.timeText time) notes with
  | none => return
  | some entries =>
    IO.FS.createDirAll l.journals.toString
    let path := (Path.join [l.journals, Journal.fileName time]).toString
    IO.FS.withFile path .append fun h => h.putStr entries.toString

def surroundings : IO Surroundings := do
  let env (name : String) : IO (Option Text) := do
    return (← IO.getEnv name).map fun (s : String) => (s : Text)
  return { override := ← env "HYBRIDEX_HOME"
           dataHome := ← env "XDG_DATA_HOME"
           userHome := (← env "HOME").getD [] }

/-- The path of a project as its data goes by: without links, if the project is there. -/
def canonical (path : Text) : IO Text := do
  try return ((← IO.FS.realPath path.toString).toString : Text)
  catch _ => return path

/-- Prints lines; `elapsed` is the time that the run took. -/
def printLines (elapsed : Nat) (lines : List Printed) : IO Unit :=
  lines.forM fun
    | .line t => IO.println t.toString
    | .timed t => IO.println (t.toString ++ toString elapsed ++ "ms")

/-- Prints the output of a run, and says how the program ends. -/
def printOutput (elapsed : Nat) (o : Output) : IO UInt32 := do
  printLines elapsed o.out
  o.err.forM fun t => IO.eprintln t.toString
  return if o.failed then 1 else 0

/-- Runs a task in a project and writes what the project keeps. -/
def runTask (project : Option Text) (task : Command.Task) : IO UInt32 := do
  let started ← IO.monoMsNow
  let folder : Text := (← IO.currentDir).toString
  let l := Location.ofProject (← surroundings).home
    (← canonical (Path.resolve folder (project.getD [])))
  let path := match task with
    | .index file => Path.resolve folder file
    | _ => []
  let file ← match task with
    | .index _ => readState path.toString
    | _ => pure .absent
  let result := Command.run Glob.read l (← readProject l) task path file
  if !task.isShowing || result.output.failed then writeProject l result.project
  writeNotes l result.notes
  printOutput ((← IO.monoMsNow) - started) result.output

end Quarry.Main

def main (args : List String) : IO UInt32 :=
  match Quarry.Command.plan (args.map fun (s : String) => (s : Quarry.Text)) with
  | .help => Quarry.Main.printOutput 0 (Quarry.Command.printed Quarry.Command.help)
  | .version => Quarry.Main.printOutput 0 (Quarry.Command.printed [Quarry.Command.version])
  | .unreadable message => Quarry.Main.printOutput 0 (Quarry.Command.failing message)
  | .run project task => Quarry.Main.runTask project task
