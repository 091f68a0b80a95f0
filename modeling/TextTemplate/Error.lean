/-!
# Errors

What can go wrong, as causes, with one message and one suggestion for a mend each.
-/

namespace TextTemplate

/-- Why a configuration could not be had. -/
inductive ConfigFault where
  /-- The text is not a configuration. -/
  | malformed
  /-- The file is not there, or is not text. -/
  | unreadable (file : String)
  deriving DecidableEq, Repr

/-- Why a template could not be filled or a formatter could not be configured. -/
inductive FormatError where
  /-- A path does not go on at `path`, the rest of its text. -/
  | invalidIdentifier (path : String)
  | config (fault : ConfigFault)
  deriving DecidableEq, Repr

namespace ConfigFault

/-- The wording of a fault; what the reader of the text or file has to say follows it. -/
def message : ConfigFault → String
  | malformed => "Failed to parse config: "
  | unreadable file => "Failed to read config file " ++ file ++ ": "

end ConfigFault

namespace FormatError

/-- The message of an error: its code and its cause. -/
def message : FormatError → String
  | invalidIdentifier path => "FMT-010: Invalid identifier: " ++ path
  | config fault => "FMT-020: Config error: " ++ fault.message

/-- How an error may be mended. -/
def suggestion : FormatError → String
  | invalidIdentifier _ =>
    "Use keys like {0}, {name}, {0.a.b} or {0[a][b]}; " ++
      "keys cannot contain '.', '[' or ']'. Write '\x7b\x7b' for a literal brace"
  | config _ => "Check the YAML syntax and the falsy/cache keys"

end FormatError

end TextTemplate
