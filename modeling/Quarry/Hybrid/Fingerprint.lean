import Quarry.Filter
import Quarry.Json.Writer
import Quarry.Settings

/-!
Fingerprints of searches, by which responses are cached. A fingerprint covers all that a response
depends on besides the documents themselves: two searches that differ only in blanks of their
queries, or in settings that no response depends on, have the same.
-/

namespace Quarry.Fingerprint

def filterJson (f : Filter) : Json :=
  let f := f.normalize
  .object (Json.optionalMember "language" (f.language.map Json.text) ++
    Json.optionalMember "pathGlob" (f.glob.map Json.text))

def subject (query : Text) (filter : Filter) (limit : Number) (sources : List Source)
    (settings : Settings) : Json :=
  .object
    [("query", .text query.trim.collapseBlanks),
      ("filters", filterJson filter),
      ("limit", .number limit),
      ("sources", .array (sources.map fun s => .text s.name)),
      ("weights", .array (Source.all.map fun s => .number (.ofFloat (settings.weights.get s)))),
      ("rrfK", Settings.orMissing Json.number settings.rankConstant)]

end Fingerprint

def fingerprint (digest : Text → Text) (query : Text) (filter : Filter) (limit : Number)
    (sources : List Source) (settings : Settings) : Text :=
  digest (Fingerprint.subject query filter limit sources settings).write

end Quarry
