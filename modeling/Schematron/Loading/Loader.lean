import Schematron.Files.Host
import Schematron.Loading.Cache
import Schematron.Loading.Fetch
import Schematron.Loading.Reference
import Schematron.Schema.Compiled
import Schematron.Schema.Reader

namespace Schematron.Loading

variable {m : Type → Type} [Monad m]

/-- Where schemas come from. -/
structure Supply (m : Type → Type) where
  host : Files.Host m
  network : Network m
  policy : FetchPolicy

abbrev SchemaCache := Cache Schema.Compiled

def compileText (text : String) : Except Failure Schema.Compiled :=
  ((Schema.parse text).bind Schema.compile).mapError fun e => .validation (.schema e)

def Supply.text (s : Supply m) : Source → m (Except Failure String)
  | .remote url => fetch s.network s.policy url
  | .file path => do
    match ← s.host.read path.toRaw with
    | .ok text => return .ok text
    | .error .missing => return .error (.schemaNotFound path.toText)
    | .error .unreadable => return .error .unreadable

/-- The compiled schema at a source. -/
def Supply.schema (s : Supply m) (source : Source) : m (Except Failure Schema.Compiled) := do
  return (← s.text source) >>= compileText

/-- The compiled schema that a reference leads to. -/
def Supply.load (s : Supply m) (r : Reference) (cache : SchemaCache) :
    m (Except Failure Schema.Compiled × SchemaCache) :=
  cache.getOrLoad r.key (s.schema r.source)

end Schematron.Loading
