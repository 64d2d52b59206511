import AncillaRouting.Config.Document
import AncillaRouting.Json.Record

/-!
# The JSON forms of the domain
-/

namespace AncillaRouting

open Json (fields variant? record)

instance : Serial Side where
  encode s := .ofString <| match s with
    | .top => "Top"
    | .bottom => "Bottom"
    | .left => "Left"
    | .right => "Right"
  decode j := do
    match ← variant? j with
    | "Top" => some .top
    | "Bottom" => some .bottom
    | "Left" => some .left
    | "Right" => some .right
    | _ => none

instance : Serial Cell where
  encode c := record [("row", Serial.encode c.row), ("col", Serial.encode c.col)]
  decode j := do
    let f ← fields ["row", "col"] j
    return ⟨← f.required "row", ← f.required "col"⟩

instance : Serial Pauli where
  encode op := .ofString op.text
  decode j := do
    match ← variant? j with
    | "X" => some .x
    | "Y" => some .y
    | "Z" => some .z
    | _ => none

instance : Serial PatchId where
  encode id := Serial.encode id.number
  decode j := PatchId.mk <$> Serial.decode j

instance : Serial Boundaries where
  encode b := record [("top", Serial.encodeOption b.top), ("bottom", Serial.encodeOption b.bottom),
    ("left", Serial.encodeOption b.left), ("right", Serial.encodeOption b.right)]
  decode j := do
    let f ← fields ["top", "bottom", "left", "right"] j
    return ⟨← f.optional "top", ← f.optional "bottom", ← f.optional "left", ← f.optional "right"⟩

instance : Serial PatchCell where
  encode c := record [("cell", Serial.encode c.cell), ("boundaries", Serial.encode c.boundaries)]
  decode j := do
    let f ← fields ["cell", "boundaries"] j
    return ⟨← f.required "cell", ← f.required "boundaries"⟩

instance : Serial Patch where
  encode p := record [("id", Serial.encode p.id), ("cells", Serial.encode p.cells)]
  decode j := do
    let f ← fields ["id", "cells"] j
    return ⟨← f.required "id", ← f.required "cells"⟩

instance : Serial FaceAnchor where
  encode a := record [("patch", Serial.encode a.patch), ("op", Serial.encode a.op),
    ("cell", Serial.encode a.cell), ("side", Serial.encode a.side)]
  decode j := do
    let f ← fields ["patch", "op", "cell", "side"] j
    return ⟨← f.required "patch", ← f.required "op", ← f.required "cell", ← f.required "side"⟩

instance : Serial RoutingCell where
  encode c := record [("cell", Serial.encode c.cell), ("connections", Serial.encode c.connections)]
  decode j := do
    let f ← fields ["cell", "connections"] j
    return ⟨← f.required "cell", ← f.required "connections"⟩

instance : Serial RoutingRegion where
  encode r := record [("cells", Serial.encode r.cells), ("source", Serial.encode r.source),
    ("target", Serial.encode r.target)]
  decode j := do
    let f ← fields ["cells", "source", "target"] j
    return ⟨← f.required "cells", ← f.required "source", ← f.required "target"⟩

instance : Serial RouteKey where
  encode k := record [("source_cell", Serial.encode k.sourceCell),
    ("source_op", Serial.encode k.sourceOp), ("target_cell", Serial.encode k.targetCell),
    ("target_op", Serial.encode k.targetOp)]
  decode j := do
    let f ← fields ["source_cell", "source_op", "target_cell", "target_op"] j
    return ⟨← f.required "source_cell", ← f.required "source_op", ← f.required "target_cell",
      ← f.required "target_op"⟩

instance : Serial SearchStrategy where
  encode s := .ofString s.text
  decode j := (variant? j).bind SearchStrategy.ofName?

instance : Serial RouterKind where
  encode k := .ofString k.text
  decode j := (variant? j).bind RouterKind.ofName?

/-- Every field has a default. The combination of the fields is not validated here. -/
instance : Serial RouterConfig where
  encode c := record [("router", Serial.encode c.router),
    ("graph_search", Serial.encode c.strategy), ("edpc", Serial.encode c.edpc)]
  decode j := do
    let f ← fields ["router", "graph_search", "edpc"] j
    return ⟨← f.defaulted "router" RouterConfig.default.router,
      ← f.defaulted "graph_search" RouterConfig.default.strategy,
      ← f.defaulted "edpc" RouterConfig.default.edpc⟩

end AncillaRouting
