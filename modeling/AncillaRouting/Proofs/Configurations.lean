import AncillaRouting.Config.File
import AncillaRouting.Proofs.Keywords
import AncillaRouting.Proofs.Outcome

/-!
# Layered configurations

How the values of a field are written is a table of words. An environment settles a configuration over another
one, field by field, or there is a first thing in it to object to. Every way to come by a configuration
validates what it gives, so the router can be built; a file is validated before anything is laid over it.
-/

namespace AncillaRouting

open Outcome

variable {α : Type}

/-- How the values of a field are written, and what is said of a word that writes none. -/
structure Spelling (α : Type) where
  table : List (String × α)
  refusal : String → InvalidConfig
  distinct : (table.map (·.1)).Nodup := by decide

def RouterKind.spelling : Spelling RouterKind where
  table := [("direct", .direct), ("cached", .cached)]
  refusal := .unknownRouter

def SearchStrategy.spelling : Spelling SearchStrategy where
  table := [("petgraph", .graph), ("boost", .graph), ("dijkstra", .dijkstra), ("djikstra", .dijkstra),
    ("astar", .astar), ("a*", .astar)]
  refusal := .unknownStrategy

def flagSpelling : Spelling Bool where
  table := [("1", true), ("true", true), ("yes", true), ("on", true),
    ("0", false), ("false", false), ("no", false), ("off", false), ("", false)]
  refusal := .unknownFlag

theorem lookup_eq_some_iff_mem {table : List (String × α)} (hd : (table.map (·.1)).Nodup) {word : String} {a : α} :
    table.lookup word = some a ↔ (word, a) ∈ table := by
  induction table with
  | nil => simp
  | cons entry table ih =>
    rw [List.map_cons, List.nodup_cons] at hd
    rw [List.lookup_cons, List.mem_cons]
    by_cases hword : word = entry.1
    · -- no later entry has the same word
      have hlater : (word, a) ∉ table := fun h => hd.1 (List.mem_map.mpr ⟨_, h, hword⟩)
      subst hword
      simp only [beq_self_eq_true, hlater, or_false, Option.some.injEq, Prod.ext_iff, true_and]
      exact eq_comm
    · have hnot : (word, a) ≠ entry := fun h => hword (congrArg Prod.fst h)
      rw [beq_false_of_ne hword]
      simp only [hnot, false_or]
      exact ih hd.2

namespace Spelling

/-- The text spells one of the words for a value. -/
def Names (f : Spelling α) (s : String) (a : α) : Prop := ∃ word, Text.Spells s word ∧ (word, a) ∈ f.table

/-- The text spells a word for no value. -/
def Rejects (f : Spelling α) (s : String) (why : InvalidConfig) : Prop :=
  ∃ word, Text.Spells s word ∧ (∀ a, (word, a) ∉ f.table) ∧ why = f.refusal word

/-- What a field is under a variable: as it was while the variable is not set, else what the variable names. -/
def Settles (f : Spelling α) (old : α) : Option String → α → Prop
  | none, a => a = old
  | some s, a => f.Names s a

/-- A variable is set to what names no value. -/
def Objects (f : Spelling α) : Option String → InvalidConfig → Prop
  | none, _ => False
  | some s, why => f.Rejects s why

def read (f : Spelling α) (s : String) : Except InvalidConfig α :=
  match f.table.lookup (Text.keyword s) with
  | some a => .ok a
  | none => .error (f.refusal (Text.keyword s))

variable {f : Spelling α} {s : String} {old a : α} {setting : Option String}

theorem read_eq_ok : f.read s = .ok a ↔ f.Names s a := by
  have hread : f.read s = .ok a ↔ (Text.keyword s, a) ∈ f.table := by
    rw [← lookup_eq_some_iff_mem f.distinct, read]
    cases f.table.lookup (Text.keyword s) with
    | none => simp
    | some b => simp
  rw [hread]
  constructor
  · exact fun h => ⟨_, Text.spells_keyword s, h⟩
  · rintro ⟨word, hword, h⟩
    rwa [Text.keyword_eq_iff.mpr hword]

theorem read_eq_error {why : InvalidConfig} : f.read s = .error why ↔ f.Rejects s why := by
  have hread : f.read s = .error why ↔
      (∀ a, (Text.keyword s, a) ∉ f.table) ∧ why = f.refusal (Text.keyword s) := by
    simp only [← lookup_eq_some_iff_mem f.distinct, read]
    cases f.table.lookup (Text.keyword s) with
    | none => simp [eq_comm]
    | some b => simp
  rw [hread]
  constructor
  · exact fun h => ⟨_, Text.spells_keyword s, h⟩
  · rintro ⟨word, hword, h⟩
    rwa [Text.keyword_eq_iff.mpr hword]

theorem override_eq_ok : RouterConfig.override f.read old setting = .ok a ↔ f.Settles old setting a := by
  cases setting with
  | none => exact ⟨fun h => (Except.ok.inj h).symm, fun h => congrArg Except.ok h.symm⟩
  | some s => exact mapError_eq_ok.trans read_eq_ok

theorem override_eq_error {e : ConfigError} :
    RouterConfig.override f.read old setting = .error e ↔ ∃ why, e = .invalid why ∧ f.Objects setting why := by
  cases setting with
  | none => exact ⟨nofun, fun ⟨_, _, h⟩ => h.elim⟩
  | some s =>
    refine mapError_eq_error.trans (exists_congr fun why => ?_)
    rw [read_eq_error, and_comm, eq_comm]
    rfl

end Spelling

/-! ## The readers -/

theorem RouterKind.ofText?_eq_lookup (s : String) : ofText? s = spelling.table.lookup (Text.keyword s) := by
  unfold ofText?
  generalize Text.keyword s = word
  split
  case h_3 => exact (List.lookup_eq_none_iff.mpr (by simp_all [spelling])).symm
  all_goals rfl

theorem RouterKind.ofText_eq_read : RouterKind.ofText = spelling.read := by
  funext s
  rw [RouterKind.ofText, Spelling.read, ofText?_eq_lookup]
  cases spelling.table.lookup (Text.keyword s) <;> rfl

theorem SearchStrategy.ofText?_eq_lookup (s : String) : ofText? s = spelling.table.lookup (Text.keyword s) := by
  unfold ofText?
  generalize Text.keyword s = word
  split
  case h_7 => exact (List.lookup_eq_none_iff.mpr (by simp_all [spelling])).symm
  all_goals rfl

theorem SearchStrategy.ofText_eq_read : SearchStrategy.ofText = spelling.read := by
  funext s
  rw [SearchStrategy.ofText, Spelling.read, ofText?_eq_lookup]
  cases spelling.table.lookup (Text.keyword s) <;> rfl

theorem flagOfText_eq_read : flagOfText = flagSpelling.read := by
  funext s
  unfold flagOfText Spelling.read
  generalize Text.keyword s = word
  split
  case h_10 =>
    have hnone : flagSpelling.table.lookup word = none := List.lookup_eq_none_iff.mpr (by simp_all [flagSpelling])
    rw [hnone]
    rfl
  all_goals rfl

/-! ## Environments -/

namespace Environment

/-- `c` is the configuration that the environment makes of `old`, field by field. -/
structure Settles (env : Environment) (old c : RouterConfig) : Prop where
  router : RouterKind.spelling.Settles old.router (env routerVariable) c.router
  strategy : SearchStrategy.spelling.Settles old.strategy (env strategyVariable) c.strategy
  edpc : flagSpelling.Settles old.edpc (env edpcVariable) c.edpc

/-- The first thing that is wrong with an environment over a configuration: a value that names nothing, in the
order of the fields, or else what the values make together. -/
inductive Objects (env : Environment) (old : RouterConfig) : InvalidConfig → Prop where
  | router {why} (h : RouterKind.spelling.Objects (env routerVariable) why) : Objects env old why
  | strategy {kind why} (hrouter : RouterKind.spelling.Settles old.router (env routerVariable) kind)
      (h : SearchStrategy.spelling.Objects (env strategyVariable) why) : Objects env old why
  | edpc {kind strategy why} (hrouter : RouterKind.spelling.Settles old.router (env routerVariable) kind)
      (hstrategy : SearchStrategy.spelling.Settles old.strategy (env strategyVariable) strategy)
      (h : flagSpelling.Objects (env edpcVariable) why) : Objects env old why
  | together {c why} (hc : env.Settles old c) (h : c.validate = .error why) : Objects env old why

end Environment

def Router.kind : Router → RouterKind
  | direct _ => .direct
  | cached _ => .cached

namespace RouterConfig

/-! ## Validity -/

variable {old c d : RouterConfig} {env : Environment} {e : ConfigError}

theorem validated_eq_ok : c.validated = .ok d ↔ d = c ∧ c.validate = .ok () := by
  unfold validated
  cases c.validate with
  | ok u => exact ⟨fun h => ⟨(Except.ok.inj h).symm, rfl⟩, fun h => congrArg Except.ok h.1.symm⟩
  | error why => exact ⟨nofun, nofun⟩

theorem validated_eq_error : c.validated = .error e ↔ ∃ why, e = .invalid why ∧ c.validate = .error why := by
  unfold validated
  cases c.validate with
  | ok u => exact ⟨nofun, nofun⟩
  | error why =>
    refine ⟨fun h => ⟨why, (Except.error.inj h).symm, rfl⟩, fun ⟨why', he, h⟩ => ?_⟩
    cases h; exact congrArg Except.error he.symm

theorem validate_eq_ok :
    c.validate = .ok () ↔ (c.edpc = true → c.router = .direct ∧ c.strategy.supportsEdpc = true) := by
  obtain ⟨router, strategy, edpc⟩ := c
  cases edpc <;> cases router <;> cases strategy <;> decide

theorem build_of_valid (h : c.validate = .ok ()) :
    ∃ r, c.build = .ok r ∧ r.kind = c.router ∧ r.strategy = c.strategy ∧ r.edpcEnabled = c.edpc := by
  obtain ⟨router, strategy, edpc⟩ := c
  cases edpc with
  | false =>
    cases router with
    | direct => exact ⟨.direct (.withStrategy strategy), rfl, rfl, rfl, rfl⟩
    | cached => exact ⟨.cached (.withStrategy strategy), rfl, rfl, rfl, rfl⟩
  | true =>
    obtain ⟨hdirect, hsupports⟩ := validate_eq_ok.mp h rfl
    cases hdirect
    refine ⟨.direct { DirectRouter.withStrategy strategy with edpc := true }, ?_, rfl, rfl, rfl⟩
    cases strategy with
    | graph => cases hsupports
    | dijkstra => rfl
    | astar => rfl

/-! ## Merging -/

theorem mergeEnvironment_eq (old : RouterConfig) (env : Environment) : old.mergeEnvironment env = (do
    let router ← override RouterKind.spelling.read old.router (env Environment.routerVariable)
    let strategy ← override SearchStrategy.spelling.read old.strategy (env Environment.strategyVariable)
    let edpc ← override flagSpelling.read old.edpc (env Environment.edpcVariable)
    validated ⟨router, strategy, edpc⟩) := by
  rw [← RouterKind.ofText_eq_read, ← SearchStrategy.ofText_eq_read, ← flagOfText_eq_read]
  rfl

theorem mergeEnvironment_of_settles (h : env.Settles old c) : old.mergeEnvironment env = c.validated := by
  rw [mergeEnvironment_eq, Spelling.override_eq_ok.mpr h.router, Spelling.override_eq_ok.mpr h.strategy,
    Spelling.override_eq_ok.mpr h.edpc]
  rfl

theorem mergeEnvironment_eq_ok : old.mergeEnvironment env = .ok c ↔ env.Settles old c ∧ c.validate = .ok () := by
  rw [mergeEnvironment_eq]
  simp only [bind_eq_ok, Spelling.override_eq_ok, validated_eq_ok]
  constructor
  · rintro ⟨router, hrouter, strategy, hstrategy, edpc, hedpc, rfl, h⟩
    exact ⟨⟨hrouter, hstrategy, hedpc⟩, h⟩
  · rintro ⟨⟨hrouter, hstrategy, hedpc⟩, h⟩
    exact ⟨c.router, hrouter, c.strategy, hstrategy, c.edpc, hedpc, rfl, h⟩

theorem mergeEnvironment_eq_error :
    old.mergeEnvironment env = .error e ↔ ∃ why, e = .invalid why ∧ env.Objects old why := by
  rw [mergeEnvironment_eq]
  simp only [bind_eq_error, Spelling.override_eq_ok, Spelling.override_eq_error, validated_eq_error]
  constructor
  -- the values that are merged before the first objection are the ones that it speaks of
  · rintro (⟨why, he, h⟩ | ⟨router, hrouter, ⟨why, he, h⟩ | ⟨strategy, hstrategy, ⟨why, he, h⟩ | ⟨edpc, hedpc, why, he, h⟩⟩⟩)
    · exact ⟨why, he, .router h⟩
    · exact ⟨why, he, .strategy hrouter h⟩
    · exact ⟨why, he, .edpc hrouter hstrategy h⟩
    · exact ⟨why, he, .together ⟨hrouter, hstrategy, hedpc⟩ h⟩
  · rintro ⟨why, he, h⟩
    cases h with
    | router h => exact .inl ⟨why, he, h⟩
    | strategy hrouter h => exact .inr ⟨_, hrouter, .inl ⟨why, he, h⟩⟩
    | edpc hrouter hstrategy h => exact .inr ⟨_, hrouter, .inr ⟨_, hstrategy, .inl ⟨why, he, h⟩⟩⟩
    | together hc h =>
      exact .inr ⟨_, hc.router, .inr ⟨_, hc.strategy, .inr ⟨_, hc.edpc, why, he, h⟩⟩⟩

/-! ## Sources of configurations -/

inductive Loaded : RouterConfig → Prop where
  | text {contents : String} {c : RouterConfig} (h : ofText contents = .ok c) : Loaded c
  | file {contents : FileContents} {c : RouterConfig} (h : ofFile contents = .ok c) : Loaded c
  | environment {env : Environment} {c : RouterConfig} (h : ofEnvironment env = .ok c) : Loaded c
  | layered {file : Option FileContents} {env : Environment} {c : RouterConfig} (h : load file env = .ok c) : Loaded c

theorem load_some (file : FileContents) (env : Environment) :
    load (some file) env = (ofFile file >>= fun c => c.mergeEnvironment env) := rfl

theorem valid_of_ofText {text : String} (h : ofText text = .ok c) : c.validate = .ok () := by
  unfold ofText at h
  split at h
  · obtain ⟨rfl, h⟩ := validated_eq_ok.mp h
    exact h
  · cases h

theorem Loaded.valid (h : Loaded c) : c.validate = .ok () := by
  cases h with
  | text h => exact valid_of_ofText h
  | file h =>
    unfold ofFile at h
    split at h
    · exact valid_of_ofText h
    · cases h
  | environment h => exact (mergeEnvironment_eq_ok.mp h).2
  | @layered file env _ h =>
    cases file with
    | none => exact (mergeEnvironment_eq_ok.mp h).2
    | some file =>
      rw [load_some] at h
      obtain ⟨old, -, h⟩ := bind_eq_ok.mp h
      exact (mergeEnvironment_eq_ok.mp h).2

theorem ofFile_of_ofYaml? {contents : ByteArray} {text : String} (ht : String.fromUTF8? contents = some text)
    (hf : ofYaml? text = some old) : ofFile (some contents) = old.validated := by
  unfold ofFile ofText
  rw [Option.bind_some, ht]
  simp only [hf]

theorem load_of_settles {contents : ByteArray} {text : String} (ht : String.fromUTF8? contents = some text)
    (hf : ofYaml? text = some old) (hc : env.Settles old c) :
    load (some (some contents)) env = (old.validated >>= fun _ => c.validated) := by
  rw [load_some, ofFile_of_ofYaml? ht hf]
  cases hvalid : old.validated with
  | error e => rfl
  | ok old' =>
    obtain ⟨rfl, -⟩ := validated_eq_ok.mp hvalid
    exact mergeEnvironment_of_settles hc

end RouterConfig

namespace Environment

/-- The environment in which just these variables are set. -/
def ofVariables (set : List (String × String)) : Environment := fun name => set.lookup name

def directOnly : Environment := ofVariables [(routerVariable, "direct")]

/-- Capitals, and blanks of several kinds. -/
def spaced : Environment :=
  ofVariables [(routerVariable, "\u3000Direct\t"), (strategyVariable, "A*"), (edpcVariable, " ON\n")]

end Environment

namespace RouterConfig

/-! ## Main results -/

/-- An environment over the defaults gives the configuration that it settles, if that is valid, or else the first
objection to it. From what any source gives, a router is built as configured. -/
theorem ofEnvironment_decided (env : Environment) :
    (∀ c, ofEnvironment env = .ok c ↔ env.Settles default c ∧ c.validate = .ok ()) ∧
      (∀ e, ofEnvironment env = .error e ↔ ∃ why, e = .invalid why ∧ env.Objects default why) ∧
      ∀ c, Loaded c → c.validate = .ok () ∧
        ∃ r, c.build = .ok r ∧ r.kind = c.router ∧ r.strategy = c.strategy ∧ r.edpcEnabled = c.edpc :=
  ⟨fun _ => mergeEnvironment_eq_ok, fun _ => mergeEnvironment_eq_error,
    fun _ h => ⟨h.valid, build_of_valid h.valid⟩⟩

theorem ofEnvironment_decided_spaced :
    ofEnvironment .spaced = .ok ⟨.direct, .astar, true⟩ ∧ Environment.spaced.Settles default ⟨.direct, .astar, true⟩ ∧
      Loaded ⟨.direct, .astar, true⟩ ∧ ∃ r, build ⟨.direct, .astar, true⟩ = .ok r ∧
        r.kind = .direct ∧ r.strategy = .astar ∧ r.edpcEnabled = true := by
  have hc : ofEnvironment .spaced = .ok ⟨.direct, .astar, true⟩ := rfl
  obtain ⟨hok, -, hbuild⟩ := ofEnvironment_decided .spaced
  exact ⟨hc, ((hok _).mp hc).1, .environment hc, (hbuild _ (.environment hc)).2⟩

/-- A file under an environment gives the configuration that the environment settles over it if the file is valid
by itself and the settled configuration is, too. The file is looked at first. -/
theorem load_validates_each_layer {contents : ByteArray} {text : String} {f c : RouterConfig} {env : Environment}
    (ht : String.fromUTF8? contents = some text) (hf : ofYaml? text = some f) (hc : env.Settles f c) :
    (∀ d, load (some (some contents)) env = .ok d ↔ d = c ∧ f.validate = .ok () ∧ c.validate = .ok ()) ∧
      ∀ e, load (some (some contents)) env = .error e ↔ ∃ why, e = .invalid why ∧
        (f.validate = .error why ∨ f.validate = .ok () ∧ c.validate = .error why) := by
  rw [load_of_settles ht hf hc]
  simp only [bind_eq_ok, bind_eq_error, validated_eq_ok, validated_eq_error]
  constructor
  · intro d
    constructor
    · rintro ⟨f', ⟨-, hfile⟩, hd, hwhole⟩
      exact ⟨hd, hfile, hwhole⟩
    · rintro ⟨hd, hfile, hwhole⟩
      exact ⟨f, ⟨rfl, hfile⟩, hd, hwhole⟩
  · intro e
    constructor
    · rintro (⟨why, he, h⟩ | ⟨f', ⟨-, hfile⟩, why, he, h⟩)
      · exact ⟨why, he, .inl h⟩
      · exact ⟨why, he, .inr ⟨hfile, h⟩⟩
    · rintro ⟨why, he, h | ⟨hfile, h⟩⟩
      · exact .inl ⟨why, he, h⟩
      · exact .inr ⟨f, ⟨rfl, hfile⟩, why, he, h⟩

theorem load_validates_each_layer_direct :
    String.fromUTF8? "graph_search: boost\n".toUTF8 = some "graph_search: boost\n" ∧
      ofYaml? "graph_search: boost\n" = some ⟨.cached, .graph, false⟩ ∧
      Environment.directOnly.Settles ⟨.cached, .graph, false⟩ ⟨.direct, .graph, false⟩ ∧
      load (some (some "graph_search: boost\n".toUTF8)) .directOnly = .ok ⟨.direct, .graph, false⟩ := by
  have ht : String.fromUTF8? "graph_search: boost\n".toUTF8 = some "graph_search: boost\n" := by decide +kernel
  have hf : ofYaml? "graph_search: boost\n" = some ⟨.cached, .graph, false⟩ := by decide +kernel
  have hmerge : mergeEnvironment ⟨.cached, .graph, false⟩ .directOnly = .ok ⟨.direct, .graph, false⟩ := rfl
  have hc := (mergeEnvironment_eq_ok.mp hmerge).1
  exact ⟨ht, hf, hc, ((load_validates_each_layer ht hf hc).1 _).mpr ⟨rfl, rfl, rfl⟩⟩

/-- A file that is valid only under the environment is refused, although the configuration that the environment
settles over it is valid. -/
theorem load_refuses_mended_file :
    String.fromUTF8? "edpc: true\n".toUTF8 = some "edpc: true\n" ∧
      ofYaml? "edpc: true\n" = some ⟨.cached, .dijkstra, true⟩ ∧
      Environment.directOnly.Settles ⟨.cached, .dijkstra, true⟩ ⟨.direct, .dijkstra, true⟩ ∧
      validate ⟨.direct, .dijkstra, true⟩ = .ok () ∧
      load (some (some "edpc: true\n".toUTF8)) .directOnly = .error (.invalid .edpcWithCache) := by
  have ht : String.fromUTF8? "edpc: true\n".toUTF8 = some "edpc: true\n" := by decide +kernel
  have hf : ofYaml? "edpc: true\n" = some ⟨.cached, .dijkstra, true⟩ := by decide +kernel
  have hmerge : mergeEnvironment ⟨.cached, .dijkstra, true⟩ .directOnly = .ok ⟨.direct, .dijkstra, true⟩ := rfl
  have hc := (mergeEnvironment_eq_ok.mp hmerge).1
  refine ⟨ht, hf, hc, rfl, ?_⟩
  rw [load_of_settles ht hf hc]
  rfl

end RouterConfig

end AncillaRouting
