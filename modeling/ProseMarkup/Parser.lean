import ProseMarkup.Document

namespace ProseMarkup

structure Parser where
  vocabulary : Vocabulary
  limits : Limits := {}
  path : Option String := none

namespace Parser

def ofLimits (vocabulary : Vocabulary) (limits : Limits) : Except Fault Parser :=
  limits.check.map fun _ => { vocabulary, limits }

def parse (p : Parser) (source : String) : Document :=
  .ofOutline source p.path p.limits.maxDiagnostics (outline p.vocabulary p.limits source.toList)

def parseBytes (p : Parser) (bytes : List UInt8) : Except Fault Document :=
  match Text.Utf8.decode bytes with
  | .ok cs => .ok (p.parse (.ofList cs))
  | .error fault => .error (.encoding fault)

end Parser

end ProseMarkup
