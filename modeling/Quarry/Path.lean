import Quarry.Text

/-!
Paths of files: segments between slashes, of which the last one names the file and may end with an
extension. A path that begins with a slash is absolute.
-/

namespace Quarry.Path

def slash : UInt16 := 47

def dot : UInt16 := 46

/-- The last segment of a path, slashes at its end left aside. -/
def fileName (path : Text) : Text :=
  ((path.reverse.dropWhile (· == slash)).takeWhile (· != slash)).reverse

/-- The extension of a path with its full stop: what a file name has from its last full stop on. A
name that only begins with one has no extension. -/
def extension (path : Text) : Text :=
  let name := fileName path
  match Text.lastOffsetOf? dot name with
  | some i => if i = 0 ∨ name = [dot, dot] then [] else name.drop i
  | none => []

def isAbsolute (path : Text) : Bool := path.head? == some slash

/-- The segments of a path without those that lead nowhere: `.` is left out, and `..` takes away the
segment before it. At the head of a path that is not absolute `..` stays. The segments taken up so
far come last first. -/
def reduce (absolute : Bool) (taken : List Text) : List Text → List Text
  | [] => taken.reverse
  | segment :: rest =>
    if segment = [] ∨ segment = [dot] then reduce absolute taken rest
    else if segment = [dot, dot] then
      match taken with
      | last :: others =>
        if last = [dot, dot] then reduce absolute (segment :: taken) rest
        else reduce absolute others rest
      | [] => reduce absolute (if absolute then [] else [segment]) rest
    else reduce absolute (segment :: taken) rest

def segments (path : Text) : List Text := reduce (isAbsolute path) [] (Text.splitAt slash path)

/-- A path in its plain form. A slash at its end is kept. -/
def normalize (path : Text) : Text :=
  let plain := Text.join [slash] (segments path)
  let closing := if path.getLast? == some slash then [slash] else []
  if isAbsolute path then
    if plain.isEmpty then [slash] else slash :: (plain ++ closing)
  else if plain.isEmpty then dot :: closing
  else plain ++ closing

def join (parts : List Text) : Text :=
  normalize (Text.join [slash] (parts.filter fun p => !p.isEmpty))

/-- The absolute path that a path means in a folder, without a slash at its end. -/
def resolve (folder path : Text) : Text :=
  let full := if isAbsolute path then path else Text.concat [folder, [slash], path]
  slash :: Text.join [slash] (reduce true [] (Text.splitAt slash full))

end Quarry.Path
