import ProseMarkup.Checked.Outline
import ProseMarkup.Checked.Tag
import ProseMarkup.Parser

namespace ProseMarkup.Checked

def shape? (source : List Char) (r : Raw) : Option (Segment.Shape × List Diagnostic) :=
  match r.kind with
  | .text => return (.text, [])
  | .template inner => do
    let expression ← slice? source inner.start inner.stop
    return (.template (.ofList (Text.trim expression)), [])
  | .element cls name openEnd closing selfClosing => do
    let (info, notes) ← parseElement source r.start openEnd closing name
    let text ← slice? source info.name.start info.name.stop
    return (.element ⟨cls, .ofList text, info.name, info.closeName, selfClosing, info.attributes⟩,
      notes)

mutual

def build (source : List Char) (parents : Parents) (above : Option Nat) :
    Tree Raw → Option (Tree Segment × List Diagnostic × Parents)
  | .node r ts => do
    let id := parents.size
    let content ← slice? source r.start r.stop
    let (shape, notes) ← shape? source r
    let (children, inner, parents) ← buildAll source (parents.push above) (some id) ts
    return (.node ⟨id, ⟨r.start, r.stop⟩, .ofList content, shape⟩ children, notes ++ inner, parents)

def buildAll (source : List Char) (parents : Parents) (above : Option Nat) :
    List (Tree Raw) → Option (List (Tree Segment) × List Diagnostic × Parents)
  | [] => return ([], [], parents)
  | t :: ts => do
    let (segment, notes, parents) ← build source parents above t
    let (segments, inner, parents) ← buildAll source parents above ts
    return (segment :: segments, notes ++ inner, parents)

end

/-- The document of a source, if every access to the source is valid. -/
def parse (p : Parser) (source : String) : Option Document := do
  let (raw, notes) ← segmentDocument p.vocabulary p.limits source.toList
  let (root, inner, parents) ← build source.toList #[] none raw
  let ⟨ordered⟩ ← assert? parents.Ordered
  let log := (Diagnostic.Log.empty p.limits.maxDiagnostics).extend (notes ++ inner)
  return { source, path := p.path, root, diagnostics := Document.arrange root log.items,
           dropped := log.dropped, parents, ordered }

end ProseMarkup.Checked
