import Quarry.Filter
import Quarry.Glob.Lexeme

/-!
The reader of globs that the program runs with. Searches know nothing of it: they take any reader.
Alternatives in round brackets and named classes of characters are not among what it reads.

Globs are patterns of paths as users write them. `*` stands for any units of one segment, `?` for
one of them, `**` for any number of segments, `[...]` for one unit of a set, and `{a,b}` for one of
its parts. A glob that begins with `!` accepts what the rest of it does not. The segments `.` and
`..` of a path are matched by no wildcard, and hidden files are matched like any others.
-/

namespace Quarry

structure Glob where
  /-- The text of the glob, which as a path it always accepts. -/
  source : Text
  negated : Bool
  pattern : Glob.Pattern

namespace Glob

open Pattern

/-! ### Common shapes -/

def deepFromHere : Pattern := seq (guard .noDotsNext) deep

def anyFolders : Pattern := opt (seq deepFromHere slash)

def namedShape? (t : Text) : Option Pattern :=
  let shapes : List (Text × List Pattern) :=
    [("*", [guard .noDotsNext, guard .more, run]),
      (".*", [dot, guard .more, run]),
      ("*.*", [guard .noDotsNext, run, dot, guard .more, run]),
      ("*/*", [guard .noDotsNext, run, slash, guard .more, guard .noDots, run]),
      ("**", [deepFromHere]),
      ("**/*", [anyFolders, guard .noDots, guard .more, run]),
      ("**/*.*", [anyFolders, guard .noDots, run, dot, guard .more, run]),
      ("**/.*", [anyFolders, dot, guard .more, run])]
  (shapes.find? (·.1 == t)).map fun shape => inOrder shape.2

def isPlainWord (u : UInt16) : Bool :=
  Text.isDigit u || (65 ≤ u && u ≤ 90) || (97 ≤ u && u ≤ 122) || u == 95

/-- The offset of the full stop before an extension of plain letters and digits. -/
def extension? (t : Text) : Option Nat :=
  match Text.lastOffsetOf? Path.dot t with
  | some i =>
    let ext := t.drop (i + 1)
    if i < t.length && !ext.isEmpty && ext.all isPlainWord then some i else none
  | none => none

theorem lt_of_extension? {t : Text} {i : Nat} (h : extension? t = some i) : i < t.length := by
  unfold extension? at h
  split at h
  · simp only [Option.ite_none_right_eq_some, Bool.and_eq_true, decide_eq_true_eq] at h
    obtain ⟨⟨⟨h1, -⟩, -⟩, h2⟩ := h
    simp_all
  · simp at h

/-- The pattern of a named shape followed by any number of extensions. -/
def commonShape? (t : Text) : Option Pattern :=
  match namedShape? t with
  | some p => some p
  | none =>
    match _h : extension? t with
    | some i => (commonShape? (t.take i)).map fun p => seq p (Pattern.text (t.drop i))
    | none => none
termination_by t.length
decreasing_by
  have := lt_of_extension? _h
  simp only [List.length_take]
  omega

/-! ### Globs without folders, sets and braces -/

/-- Whether a glob names a single segment with stars and question marks alone. -/
def isSimple (t : Text) : Bool :=
  t.all (fun u => !([47, 40, 41, 91, 93, 123, 125, 34].contains u)) &&
    match t with
    | u :: _ => u != 42 && u != 33
    | [] => true

def simplePattern : Lexeme → Pattern
  | .unit u => unit u
  | .any => one .segment
  | .set s _ => one s
  | .slash => slash
  | .dot => dot
  | .stars _ => run
  | .opening => unit 123
  | .comma => unit 44
  | .closing => unit 125

/-! ### Globs in general -/

/-- A part of a glob: a pattern, or the structure of braces around patterns. -/
inductive Part where
  | matching (p : Pattern)
  | opening
  | comma
  | closing

inductive Before where
  /-- Nothing; whether a star here has to keep out of the segments `.` and `..`. -/
  | start (guarded : Bool)
  | slash
  | dot
  | star
  | deep
  | set
  | brace
  | other
deriving DecidableEq, Repr

/-- The rest of a glob without further `**` segments behind a `**`. -/
def skipDeep : List Lexeme → List Lexeme
  | .slash :: .stars 2 :: [] => []
  | .slash :: .stars 2 :: .slash :: rest => skipDeep (.slash :: rest)
  | rest => rest

theorem length_skipDeep_le (ls : List Lexeme) : (skipDeep ls).length ≤ ls.length := by
  fun_induction skipDeep ls with
  | case1 => simp
  | case2 rest ih => simp only [List.length_cons] at ih ⊢; omega
  | case3 => simp

def keepsDeep : List Lexeme → Bool
  | [] | .slash :: _ | .opening :: _ | .comma :: _ | .closing :: _ => true
  | _ => false

/-- Two stars that stand for whole segments only where they are alone in one. -/
def deepOrRun (rest : List Lexeme) : Pattern × Before :=
  if keepsDeep rest then (deep, .deep) else (run, .star)

def starGuards (before : Before) (count : Nat) : List Pattern :=
  let more := if count = 1 then [guard .more] else []
  match before with
  | .start true | .slash => guard .noDots :: more
  | .dot => guard .segmentGoesOn :: more
  | .start false | .star | .deep | .set | .brace | .other => []

/-- Whether two stars at this place can stand for whole segments. -/
def allowsDeep (before : Before) (depth : Nat) : Bool :=
  match before with
  | .start _ | .slash => true
  | .brace => 0 < depth
  | .dot | .star | .deep | .set | .other => false

/-- Whether a full stop here begins the name of a segment. -/
def beginsName (before : Before) (depth : Nat) : Bool :=
  match before with
  | .start _ | .slash => true
  | _ => 0 < depth

def Before.isStarred : Before → Bool
  | star | deep => true
  | _ => false

def deepBehindSlash : Pattern := inOrder [slash, guard .noDots, deep]

/-- The parts of a glob from a place on, inside so many braces. Stars and sets at the end let a
slash follow. -/
def parts (before : Before) (depth : Nat) (lexemes : List Lexeme) : List Part :=
  match lexemes with
  | [] => match before with
    | .star | .set => [.matching (opt slash)]
    | _ => []
  | .unit u :: rest => .matching (unit u) :: parts .other depth rest
  | .any :: rest => .matching (one .segment) :: parts .other depth rest
  | .set s spelling :: rest =>
    .matching (match spelling with
      | some t => either (Pattern.text t) (one s)
      | none => one s) :: parts .set depth rest
  | .dot :: rest =>
    .matching dot :: parts (if beginsName before depth then .dot else .other) depth rest
  | .opening :: rest => .opening :: parts .brace (depth + 1) rest
  | .comma :: rest => .comma :: parts .brace depth rest
  | .closing :: rest => .closing :: parts .brace (depth - 1) rest
  | .slash :: .stars 2 :: rest =>
    match before with
    | .start _ => .matching slash :: parts .slash depth (.stars 2 :: rest)
    | _ =>
      match _h : skipDeep rest with
      | [] =>
        if before.isStarred then [.matching deepBehindSlash]
        else [.matching (either deepBehindSlash (guard .last))]
      | .slash :: more =>
        let ending := if more.isEmpty then [] else [guard .last]
        .matching (anyOf ([seq deepBehindSlash slash, slash] ++ ending)) :: parts .slash depth more
      | _ :: _ => .matching slash :: parts .slash depth (.stars 2 :: rest)
  | .slash :: rest => .matching slash :: parts .slash depth rest
  | .stars count :: rest =>
    if count = 2 ∧ allowsDeep before depth then
      match before, _h : skipDeep rest with
      | .start _, [] => [.matching deep]
      | .start _, .slash :: more =>
        .matching (anyOf [guard .first, slash, seq deep slash]) :: parts .slash depth more
      | _, rest' =>
        let (p, after) := deepOrRun rest'
        .matching (inOrder (starGuards before count ++ [p])) :: parts after depth rest'
    else .matching (inOrder (starGuards before count ++ [run])) :: parts .star depth rest
termination_by lexemes.length
decreasing_by
  all_goals
    have := length_skipDeep_le rest
    grind

/-- Braces that are open: the parts before their last comma, and what follows it. -/
structure OpenBraces where
  outside : Pattern
  finished : List Pattern

/-- Puts the parts of a glob together. Braces without a comma stand for themselves, and a glob whose
braces are not closed matches nothing. -/
def assemble (current : Pattern) (stack : List OpenBraces) : List Part → Pattern
  | [] => if stack.isEmpty then current else never
  | .matching p :: rest => assemble (seq current p) stack rest
  | .opening :: rest => assemble empty (⟨current, []⟩ :: stack) rest
  | .comma :: rest => match stack with
    | [] => never
    | top :: below =>
      assemble empty ({ top with finished := top.finished ++ [current] } :: below) rest
  | .closing :: rest => match stack with
    | [] => never
    | top :: below =>
      let inside :=
        if top.finished.isEmpty then inOrder [unit 123, current, unit 125]
        else anyOf (top.finished ++ [current])
      assemble (seq top.outside inside) below rest

/-! ### Reading globs -/

/-- A glob without a leading `./`. -/
def dropHere : Text → Text
  | 46 :: 47 :: rest => rest
  | t => t

/-- A glob without any number of leading `./`. -/
def dropAllHere : Text → Text
  | 46 :: 47 :: rest => dropAllHere rest
  | t => t

def shorten (t : Text) : Text :=
  if t == ("***" : Text) then "*"
  else if t == ("**/**" : Text) || t == ("**/**/**" : Text) then "**"
  else t

/-- Reads a glob in general: leading `!` that negate it, in pairs to no effect, and then
its parts. -/
def readGeneral (source t : Text) : Glob :=
  let bangs := (t.takeWhile (· == 33)).length
  let body := t.drop bangs
  let single := bangs = 0 ∨ bangs % 2 = 1
  let body := if single then dropAllHere body else body
  { source
    negated := bangs % 2 = 1
    pattern := assemble empty [] (parts (.start single) 0 (Lexeme.ofText body)) }

def ofText (source : Text) : Glob :=
  let t := dropHere (shorten source)
  let common := match source with
    | 46 :: _ | 42 :: _ => commonShape? t
    | _ => none
  match common with
  | some p => ⟨source, false, seq p (opt slash)⟩
  | none =>
    if isSimple t then ⟨source, false, inOrder ((Lexeme.ofText t).map simplePattern)⟩
    else readGeneral source t

/-- Whether a glob accepts a path. No glob accepts the empty path, and every glob accepts its own
text. -/
def accepts (g : Glob) (path : Text) : Bool :=
  !path.isEmpty &&
    (path == g.source ||
      if g.negated then path.all UnitSet.line.contains && !g.pattern.accepts path
      else g.pattern.accepts path)

/-- The greatest length of a glob. -/
def longest : Nat := 65536

/-- Reads a glob, which is refused if it is too long. -/
def read : GlobReader := fun t =>
  if longest < (shorten t).length then .error (.fault ⟨"SyntaxError", Json.unreadable, none, none⟩)
  else .ok (ofText t).accepts

end Glob
end Quarry
