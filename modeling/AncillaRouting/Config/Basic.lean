import AncillaRouting.Router.Basic

/-!
# Router configurations

A configuration says which router to build, with which strategy, and whether extended routing is
on. Not every combination is valid, and no router is built from one that is not.
-/

namespace AncillaRouting

inductive RouterKind where
  | direct
  | cached
deriving DecidableEq, Repr

namespace RouterKind

def text : RouterKind → String
  | direct => "direct"
  | cached => "cached"

/-- The kind that a keyword names, in any ASCII case and with blanks around it. -/
def ofText? (s : String) : Option RouterKind :=
  match Text.keyword s with
  | "direct" => some direct
  | "cached" => some cached
  | _ => none

end RouterKind

structure RouterConfig where
  router : RouterKind
  strategy : SearchStrategy
  edpc : Bool
deriving DecidableEq, Repr

namespace RouterConfig

def default : RouterConfig := ⟨.cached, .default, false⟩

def validate (c : RouterConfig) : Except InvalidConfig Unit :=
  if c.edpc && c.router == .cached then .error .edpcWithCache
  else if c.edpc && !c.strategy.supportsEdpc then .error (.edpcWithStrategy c.strategy)
  else .ok ()

def validated (c : RouterConfig) : Except ConfigError RouterConfig :=
  match c.validate with
  | .ok () => .ok c
  | .error why => .error (.invalid why)

def build (c : RouterConfig) : Except RouteError Router := do
  let c ← c.validated.mapError .config
  let router := match c.router with
    | .direct => Router.direct (.withStrategy c.strategy)
    | .cached => Router.cached (.withStrategy c.strategy)
  if c.edpc then router.enableEdpc else return router

end RouterConfig

end AncillaRouting
