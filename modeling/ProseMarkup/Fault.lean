import ProseMarkup.Text.Utf8

namespace ProseMarkup

inductive Fault where
  | noDepth
  | invalidName (name : String)
  | nameTaken (name : String)
  | encoding (fault : Text.Utf8.Fault)
deriving DecidableEq, Repr

def Fault.message : Fault → String
  | .noDepth => "Invalid configuration: max_nesting_depth must be at least 1"
  | .invalidName name => s!"Registry error: '{name}' is not a valid tag name"
  | .nameTaken name => s!"Registry error: Tag '{name}' is already registered"
  | .encoding fault => s!"UTF-8 encoding error: {fault.message}"

end ProseMarkup
