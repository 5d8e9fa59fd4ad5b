import Schematron.Files.Host
import Schematron.Loading.Failure
import Schematron.Loading.Reference
import Schematron.Validation.Run

/-!
What the validation of a file asks for on its way to a result, of the outside and of what files share. The
files may go one after the other or take turns; that is for those to decide who answer.
-/

namespace Schematron.Batch

open Schematron.Loading

inductive Op where
  /-- The time in microseconds. -/
  | clock
  | read (path : Files.Raw)
  /-- Whether no more files are to be begun. -/
  | stopped
  /-- The schema that is kept for a location. -/
  | seek (location : String)
  /-- The schema at a source, which is kept from then on. -/
  | load (source : Source)
  /-- The query at a place of the schema that is kept for a location. -/
  | query (location : String) (schema : Schema.Compiled) (place : Validation.Place)
  /-- Tells that no more files are to be begun. -/
  | signal
  /-- Counts a file. -/
  | finish (path : Files.Raw)

@[reducible] def Op.Answer : Op → Type
  | clock => Nat
  | read _ => Except Files.ReadFailure String
  | stopped => Bool
  | seek _ => Option Schema.Compiled
  | load _ => Except Failure Schema.Compiled
  | query _ _ _ => Except XPath.ParseError Query.Compiled
  | signal => Unit
  | finish _ => Unit

/-- What asks on its way to a result. -/
inductive Job (α : Type) where
  | done (a : α)
  | ask (op : Op) (next : op.Answer → Job α)

namespace Job

variable {α β : Type}

def bind : Job α → (α → Job β) → Job β
  | done a, f => f a
  | ask op next, f => ask op fun answer => (next answer).bind f

instance : Monad Job where
  pure := done
  bind := bind

def of (op : Op) : Job op.Answer := ask op done

/-- Asks for the queries of the schema that is kept for a location. -/
def ofQueries (location : String) (schema : Schema.Compiled) : Validation.Queries α → Job α
  | .done a => done a
  | .fetch place next => ask (.query location schema place) fun answer => ofQueries location schema (next answer)

/-- The schema at a source: the one that is kept, or else one that is loaded. -/
def schema (source : Source) : Job (Except Failure Schema.Compiled) := do
  match ← of (.seek source.key) with
  | some schema => return .ok schema
  | none => of (.load source)

/-- Reads the text of a document and validates it against a schema that is kept for a location. -/
def report (o : Validation.Options) (location : String) (schema : Schema.Compiled) (origin text : String) :
    Job (Except Validation.Failure Validation.Report) :=
  match Xml.Instance.parse text with
  | some d => ofQueries location schema (Prod.fst <$> Validation.Run.execute o schema d)
  | none => return .error (.illFormed origin)

end Job

end Schematron.Batch
