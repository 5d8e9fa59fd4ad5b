namespace Schematron.Schema

inductive SchemaError where
  | illFormed
  | malformed (reason : String)
  | unsupportedBinding (binding : String)
  | unknownPhase (id : String)
  | duplicatePattern (id : String)
  | unresolvedPattern (pattern base : String)
  | unresolvedRule (rule target : String)
  | unknownActive (phase pattern : String)
  | abstractActive (phase pattern : String)
  | missingParameter (pattern base parameter : String)
  | cyclicExtension (chain : List String)
  deriving DecidableEq, Repr

namespace SchemaError

def message : SchemaError → String
  | illFormed => "Schema is not well-formed XML"
  | malformed reason => "Malformed schema: " ++ reason
  | unsupportedBinding binding => "Unsupported query binding: " ++ binding
  | unknownPhase id => "Unknown phase: " ++ id
  | duplicatePattern id => "Duplicate pattern id: " ++ id
  | unresolvedPattern pattern base =>
    "Pattern '" ++ pattern ++ "' references unknown abstract pattern '" ++ base ++ "'"
  | unresolvedRule rule target => "Rule '" ++ rule ++ "' extends unknown rule '" ++ target ++ "'"
  | unknownActive phase pattern =>
    "Phase '" ++ phase ++ "' activates unknown pattern '" ++ pattern ++ "'"
  | abstractActive phase pattern =>
    "Phase '" ++ phase ++ "' activates abstract pattern '" ++ pattern ++ "'"
  | missingParameter pattern base parameter =>
    "Pattern '" ++ pattern ++ "' does not supply parameter '" ++ parameter ++ "' required by '"
      ++ base ++ "'"
  | cyclicExtension chain => "Cyclic rule extension: " ++ " -> ".intercalate chain

end SchemaError

end Schematron.Schema
