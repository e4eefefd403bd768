import Quarry.Digest
import Quarry.Path
import Quarry.Text.Blank

/-!
Where data is kept. All of it lies below one home folder, never in the project that is searched:
each project has a folder there whose name is made from the path of the project.
-/

namespace Quarry

structure Surroundings where
  override : Option Text
  /-- The folder for data of all programs. -/
  dataHome : Option Text
  userHome : Text

def programName : Text := "hybridex"

def spoken? (t : Option Text) : Option Text :=
  match (t.getD []).trim with
  | [] => none
  | t => some t

def Surroundings.home (s : Surroundings) : Text :=
  match spoken? s.override, spoken? s.dataHome with
  | some folder, _ => folder
  | none, some folder => Path.join [folder, programName]
  | none, none => Path.join [s.userHome, ".local", "share", programName]

def projectName (path : Text) : Text :=
  (Digest.ofText (Text.concat [programName, ":", path])).take 20

structure Location where
  folder : Text

namespace Location

def ofProject (home path : Text) : Location := ⟨Path.join [home, "projects", projectName path]⟩

def settings (l : Location) : Text := Path.join [l.folder, "config.json"]

def snapshot (l : Location) : Text := Path.join [l.folder, "index-snapshot.json"]

def table (l : Location) : Text := Path.join [l.folder, "lancedb"]

def journals (l : Location) : Text := Path.join [l.folder, "logs"]

end Location
end Quarry
