import ProseMarkup.Limits
import ProseMarkup.Region.Head

namespace ProseMarkup

namespace Region

/-- The regions of a text that starts at the given offset, below `depth` elements. -/
def regions (v : Vocabulary) (limit depth start : Nat) (cs : List Char) : List (Tree Region) :=
  if hcs : cs = [] then []
  else
    match h : Head.read v cs with
    | .prose passed fault rest =>
      have : rest.length < cs.length := Head.rest_length hcs h
      prose start passed (fault.toList.map (·.diagnostic start))
        (regions v limit depth (start + Text.size passed) rest)
    | .template inner rest =>
      have : rest.length < cs.length := Head.rest_length hcs h
      let r := ofTemplate start inner
      .node r [] :: regions v limit depth r.span.stop rest
    | .element e rest =>
      have : rest.length < cs.length := Head.rest_length hcs h
      have : (e.markup v).length < cs.length :=
        Nat.lt_of_lt_of_le (e.markup_length v) (Head.chars_length h)
      let t :=
        if depth < limit then
          .node (ofElement v start e)
            (regions v limit (depth + 1) (start + Text.size e.opening.text) (e.markup v))
        else .node (ofCut limit start e) []
      t :: regions v limit depth (start + Text.size e.text) rest
termination_by cs.length

end Region

/-- The outline of a source. A source above the byte limit is one region of prose. A region that
covers the source is the root, and several regions stand below a region of prose. -/
def outline (v : Vocabulary) (limits : Limits) (source : List Char) : Tree Region :=
  match limits.brokenBy? (Text.size source) with
  | some limit => .node ⟨0, .text source, [.inputTooLarge (Text.size source) limit]⟩ []
  | none =>
    match Region.regions v limits.maxDepth 0 0 source with
    | [t] => t
    | ts => .node ⟨0, .text source, []⟩ ts

end ProseMarkup
