import Schematron.Config.Settings

namespace Schematron.Config

inductive ConfigError where
  /-- A file of settings cannot be read. -/
  | unreadable
  | badToml
  | badJson
  | violation (v : Violation)
  | environment (key value : String)
  | unsupportedFormat (extension : String)
  deriving DecidableEq, Repr

def ConfigError.message : ConfigError → String
  | unreadable => "IO error"
  | badToml => "TOML parsing error"
  | badJson => "JSON parsing error"
  | violation v => "Configuration validation error: " ++ v.message
  | environment key value => "Invalid " ++ key ++ " value: " ++ value
  | unsupportedFormat e => "Unsupported configuration file format: " ++ e

end Schematron.Config
