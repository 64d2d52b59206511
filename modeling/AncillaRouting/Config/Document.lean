import AncillaRouting.Config.Basic
import AncillaRouting.Yaml.Document

/-!
# Configurations in YAML

A configuration is a mapping from field names to values. Keys that name no field are ignored, no
field may be given twice, and a field that is missing has its default. No document at all, or an
empty one, is the default configuration.
-/

namespace AncillaRouting

open Yaml (Document Node Scalar)

namespace Yaml

/-- The variant that a scalar names: by its text, or by a local tag on nothing. -/
def Scalar.variant? (s : Scalar) : Option String :=
  match s.tag.map (·.toList) with
  | some ('!' :: name) =>
    if s.style == .plain && ["", "~", "null", "Null", "NULL"].contains s.text then
      some (String.ofList name)
    else none
  | _ => some s.text

def Scalar.bool? (s : Scalar) : Option Bool :=
  if s.style == .plain || (s.style == .literal && s.tag == some "tag:yaml.org,2002:bool") then
    if ["true", "True", "TRUE"].contains s.text then some true
    else if ["false", "False", "FALSE"].contains s.text then some false
    else none
  else none

/-- The entries of the mapping that a document holds by the texts of their keys, all of which must be
scalars. -/
def Document.fields? (d : Document) : Option (List (String × Node)) :=
  match d.root with
  | .mapping entries => entries.mapM fun (k, v) => (fun s => (s.text, v)) <$> d.scalar? k
  | .scalar s => if s.text.isEmpty && s.style == .plain then some [] else none
  | _ => none

end Yaml

def SearchStrategy.ofName? : String → Option SearchStrategy
  | "petgraph" | "boost" => some .graph
  | "dijkstra" | "djikstra" => some .dijkstra
  | "astar" => some .astar
  | _ => none

def RouterKind.ofName? : String → Option RouterKind
  | "direct" => some .direct
  | "cached" => some .cached
  | _ => none

namespace RouterConfig

def fieldNames : List String := ["router", "graph_search", "edpc"]

def fieldOf {α : Type} (d : Document) (read : Scalar → Option α) (fields : List (String × Node))
    (name : String) (default : α) : Option α :=
  match fields.lookup name with
  | some v => (d.scalar? v).bind read
  | none => some default

def ofDocument? (d : Document) : Option RouterConfig := do
  let fields ← d.fields?
  let known := fields.filter fun (k, _) => fieldNames.contains k
  if !(known.map (·.1)).Nodup then none
  let router ← fieldOf d (fun s => s.variant?.bind RouterKind.ofName?) known "router" default.router
  let strategy ← fieldOf d (fun s => s.variant?.bind SearchStrategy.ofName?) known "graph_search"
    default.strategy
  let edpc ← fieldOf d Scalar.bool? known "edpc" default.edpc
  return ⟨router, strategy, edpc⟩

def ofYaml? (text : String) : Option RouterConfig := do
  match ← Yaml.document? text with
  | none => return default
  | some d => ofDocument? d

end RouterConfig

end AncillaRouting
