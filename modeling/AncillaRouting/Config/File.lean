import AncillaRouting.Config.Document

/-!
# Configurations from files and the environment

A variable that is set takes precedence over what a file says, and the file over the defaults.
-/

namespace AncillaRouting

abbrev Environment := String → Option String

namespace Environment

def routerVariable : String := "LSQECC_ROUTER"

def strategyVariable : String := "LSQECC_GRAPH_SEARCH"

def edpcVariable : String := "LSQECC_EDPC"

end Environment

def RouterKind.ofText (s : String) : Except InvalidConfig RouterKind :=
  match ofText? s with
  | some kind => .ok kind
  | none => .error (.unknownRouter (Text.keyword s))

def SearchStrategy.ofText (s : String) : Except InvalidConfig SearchStrategy :=
  match ofText? s with
  | some strategy => .ok strategy
  | none => .error (.unknownStrategy (Text.keyword s))

/-- Reads a switch. Nothing at all means off. -/
def flagOfText (s : String) : Except InvalidConfig Bool :=
  match Text.keyword s with
  | "1" | "true" | "yes" | "on" => .ok true
  | "0" | "false" | "no" | "off" | "" => .ok false
  | word => .error (.unknownFlag word)

namespace RouterConfig

def override {α : Type} (read : String → Except InvalidConfig α) (old : α) :
    Option String → Except ConfigError α
  | none => .ok old
  | some text => (read text).mapError .invalid

/-- The configuration under an environment. The values are read in the order of the fields, and
only what they make together is validated. -/
def mergeEnvironment (c : RouterConfig) (env : Environment) : Except ConfigError RouterConfig := do
  let router ← override RouterKind.ofText c.router (env Environment.routerVariable)
  let strategy ← override SearchStrategy.ofText c.strategy (env Environment.strategyVariable)
  let edpc ← override flagOfText c.edpc (env Environment.edpcVariable)
  validated ⟨router, strategy, edpc⟩

def ofEnvironment (env : Environment) : Except ConfigError RouterConfig :=
  default.mergeEnvironment env

end RouterConfig

/-! ## Files -/

/-- What a file holds; `none` if there is no such file. -/
abbrev FileContents := Option ByteArray

namespace RouterConfig

def ofText (text : String) : Except ConfigError RouterConfig :=
  match ofYaml? text with
  | some c => c.validated
  | none => .error .malformed

/-- The configuration in a file, which must be valid by itself. -/
def ofFile (file : FileContents) : Except ConfigError RouterConfig :=
  match file.bind String.fromUTF8? with
  | some text => ofText text
  | none => .error .unreadable

/-- The configuration in a file, or the defaults if none is named, under an environment. -/
def load (file : Option FileContents) (env : Environment) : Except ConfigError RouterConfig := do
  let c ← match file with
    | some contents => ofFile contents
    | none => .ok default
  c.mergeEnvironment env

end RouterConfig

end AncillaRouting
