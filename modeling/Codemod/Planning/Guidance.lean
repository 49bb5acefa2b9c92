import Codemod.Disk
import Codemod.Json.Basic
import Codemod.Text.Find

/-! Looking up migration notes: the sentences around the keyword that a diagnostic mentions. -/
namespace Codemod
open Text

/-- The passage that bullets were taken from. -/
structure Citation where
  title : String
  quote : String
  url : Option String
  deriving DecidableEq, Repr

structure Guidance where
  bullets : List String
  citations : List Citation
  deriving DecidableEq, Repr

namespace Guidance

def defaultKeywords : List String :=
  ["RouteComponentProps", "withRouter", "useHistory", "useNavigate", "useLocation", "Switch",
   "Redirect", "Navigate"]

/-- How much of the document is taken on each side of where the keyword begins. -/
def radius : Nat := 600

def sentenceLimit : Nat := 6

/-- A bullet is longer than this. -/
def minLength : Nat := 20

/-- The keyword that a text mentions first; of two that begin at one place, the earlier in the
list. -/
def keywordIn? (keywords : List (List Char)) : List Char → Option (List Char)
  | [] => none
  | c :: cs => (keywords.find? (·.isPrefixOf (c :: cs))).or (keywordIn? keywords cs)

def endsSentence (c : Char) : Bool := c == '.' || c == '!' || c == '?'

/-- The sentences of a text. One ends at a mark followed by blanks; the mark and the blanks are left
out. -/
def sentences (skip : Bool) : List Char → List (List Char)
  | [] => [[]]
  | c :: cs =>
    if skip && isBlank c then sentences true cs
    else if endsSentence c && cs.head?.any isBlank then [] :: sentences true cs
    else match sentences false cs with
      | [] => [[c]]
      | s :: rest => (c :: s) :: rest

/-- The document around the first occurrence of the keyword. When the keyword is not in the document
the head of it stands in. -/
def excerpt (document keyword : List Char) : List Char :=
  let index : Int := match find? keyword document with
    | some i => i
    | none => -1
  between (index - radius).toNat (index + radius).toNat document

def bulletsOf (excerpt : List Char) : List String :=
  (((sentences false excerpt).take sentenceLimit).map trim).filterMap fun s =>
    if s.length > minLength then some (String.ofList s) else none

/-- The guidance a document has for a hint. The keyword is looked for in the hint first. -/
def ofText? (title : String) (document hint : List Char) (keywords : List String) :
    Option Guidance :=
  let words := (keywords.filter (· != "")).map String.toList
  ((keywordIn? words hint).or (keywordIn? words document)).map fun keyword =>
    let passage := excerpt document keyword
    ⟨bulletsOf passage, [⟨title, String.ofList (trim passage), none⟩]⟩

/-- The guidance in a file, if the file can be read. -/
def search (disk : Disk) (document : Path) (hint : String) (keywords : List String) :
    Option Guidance :=
  match disk.readLines document with
  | .ok text => ofText? document.fileName text.toList hint.toList keywords
  | .error _ => none

def toJson (g : Guidance) : Json :=
  .obj [("bullets", Json.strings g.bullets),
    ("citations", .arr (g.citations.map fun c =>
      .obj [("title", .str c.title), ("quote", .str c.quote)]))]

end Guidance
end Codemod
