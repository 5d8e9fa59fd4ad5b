import Schematron.Files.Path
import Schematron.Loading.Association
import Schematron.Schema.Model

namespace Schematron.Loading

open Schematron.Files

/-- Where a schema is. -/
inductive Source where
  | file (path : Path)
  | remote (url : String)
  deriving DecidableEq, Repr

/-- A schema as a document or a caller names it. -/
structure Reference where
  href : String
  source : Source
  deriving DecidableEq, Repr

namespace Source

def isRemote (href : String) : Bool :=
  "http://".toList.isPrefixOf href.toList || "https://".toList.isPrefixOf href.toList

def withoutScheme (href : String) : String :=
  match "file://".toList.isPrefixOf? href.toList with
  | some rest => String.ofList rest
  | none => href

/-- Where `href` leads from a directory. -/
def resolve (base : Path) (href : String) : Source :=
  if isRemote href then .remote href
  else .file (base.join (Path.ofText (withoutScheme href))).folded

def location : Source → String
  | file path => path.toText
  | remote url => url

/-- The name under which a schema is kept. It is made of what is shown for a path. -/
def key : Source → String
  | file path => "local:" ++ path.toText
  | remote url => url

end Source

namespace Reference

/-- A schema named by a caller, from the current directory. -/
def explicit (href : String) : Reference := ⟨href, .resolve ⟨false, []⟩ href⟩

def key (r : Reference) : String := r.source.key

/-- Whether an association is with a Schematron schema: by the namespace it gives or, without one, by the
ending of the name. -/
def isSchematron (href : String) (types : Option String) : Bool :=
  match types with
  | some uri => uri = Schema.isoNamespace || uri = Schema.earlyNamespace
  | none => ".sch".toList.isSuffixOf href.toList

/-- The schema that an instruction of a document in `base` names. -/
def ofInstruction? (base : Path) (inside : List Char) : Option Reference :=
  let found := Association.pseudos inside
  match Association.valueOf? "href" found with
  | some href =>
    if isSchematron href (Association.valueOf? "schematypens" found) then some ⟨href, .resolve base href⟩
    else none
  | none => none

/-- The schemas that a document names in its prolog. -/
def allIn (text : String) (document : Path) : List Reference :=
  (Association.instructions (prolog text.toList)).filterMap (ofInstruction? document.directory)

end Reference

end Schematron.Loading
