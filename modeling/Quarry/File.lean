import Quarry.Failure
import Quarry.Json.Writer

/-!
What stands at a path. Files hold text in UTF-8, so that a surrogate that stands alone does not
survive being written.
-/

namespace Quarry

inductive FileState where
  | absent
  | content (t : Text)
  | folder

namespace FileState

def read (path : Text) : FileState → Except Failure Text
  | absent => .error (.noFile path)
  | content t => .ok t
  | folder => .error (.isFolder "read")

/-- Writes a file in place of what stands at a path. -/
def write (path t : Text) : FileState → Except Failure FileState
  | folder => .error (.isFolder (Text.concat ["open '", path, "'"]))
  | absent | content _ => .ok (content t.replaceLone)

def isThere : FileState → Bool
  | absent => false
  | content _ | folder => true

end FileState
end Quarry
