import Schematron.Schema.Error
import Schematron.Schema.Model
import Schematron.Schema.Reference

namespace Schematron.Schema

namespace Document

/-- The names that a `let` binds anywhere in the schema. -/
def letNames (d : Document) : List String :=
  (d.lets ++ d.phases.flatMap (·.2.lets)
    ++ d.patterns.flatMap fun p => p.lets ++ p.rules.flatMap (·.lets)).map (·.name)

end Document

/-- The first name in code point order. -/
def least? : List String → Option String
  | [] => none
  | n :: rest =>
    match least? rest with
    | some m => some (if m < n then m else n)
    | none => some n

/-- The names that a pattern leaves for its instances to supply. -/
def required (d : Document) (base : Pattern) : List String :=
  (base.queries.flatMap references).filter fun n => !d.letNames.contains n

/-- The abstract pattern `base` with the parameters of `p` put into its queries. -/
def instantiate (d : Document) (p : Pattern) (base : String) : Except SchemaError Pattern :=
  match (d.pattern? base).filter (·.isAbstract) with
  | none => .error (.unresolvedPattern p.idOrEmpty base)
  | some b =>
    match least? ((required d b).filter fun n => (p.parameters.get? n).isNone) with
    | some n => .error (.missingParameter p.idOrEmpty base n)
    | none =>
      .ok {
        id := p.id
        title := p.title <|> b.title
        isAbstract := false
        base := none
        parameters := []
        lets := b.lets.map (·.mapQuery (substitute p.parameters)) ++ p.lets
        rules := b.rules.map (·.mapQueries (substitute p.parameters)) }

end Schematron.Schema
