/-
CodexPlus/ResponsesTools.lean

The tools of a request on the two wire formats: `chat_tools_from_responses_tools` of
codex-api/src/endpoint/chat.rs and `anthropic_tools_from_responses_tools` of
codex-api/src/endpoint/anthropic.rs.

Both walk the list in the same way, so the loop is one definition over an `Endpoint`: how
it declares a function tool and a custom tool, and its error for a value that is no tool.
Every declaration enters the name map that the stream decoder later reads.  A `Tool` is
what a declaration is about: the namespace, the name and the kind.
-/
import CodexPlus.AnthropicMessages
import CodexPlus.ChatMessages
import CodexPlus.Registry
import CodexPlus.Text

namespace CodexPlus

open List

open Registry

/-! ### The declarations -/

structure ResponsesCustomTool where
  name : String
  description : Option String
  deriving DecidableEq, Repr

/-- `ResponsesTool`, over the function tools of an endpoint. -/
inductive ResponsesTool (φ : Type) where
  | function (tool : φ)
  | namespaced (name : String) (tools : List φ)
  | custom (tool : ResponsesCustomTool)
  | unknown

/-- What an endpoint does with the tools: `σ` are its name maps and `τ` its declarations. -/
structure Endpoint (φ σ τ : Type) where
  functionTool : φ → Option String → σ → Except ApiError (τ × σ)
  customTool : ResponsesCustomTool → σ → Except ApiError (τ × σ)
  invalidTool : String → String

namespace Endpoint

variable {ν φ σ τ : Type} (endpoint : Endpoint φ σ τ)

/-- The function tools of a namespace, or one without. -/
def functionTools (toolNamespace : Option String) :
    List φ → σ → Except ApiError (List τ × σ)
  | [], toolNames => .ok ([], toolNames)
  | tool :: tools, toolNames => do
    let declared ← endpoint.functionTool tool toolNamespace toolNames
    let rest ← functionTools toolNamespace tools declared.2
    .ok (declared.1 :: rest.1, rest.2)

def responsesTool : ResponsesTool φ → σ → Except ApiError (List τ × σ)
  | .function tool, toolNames => endpoint.functionTools none [tool] toolNames
  | .namespaced name tools, toolNames => endpoint.functionTools (some name) tools toolNames
  | .custom tool, toolNames => do
    let declared ← endpoint.customTool tool toolNames
    .ok ([declared.1], declared.2)
  | .unknown, toolNames => .ok ([], toolNames)

/-- The loop of both conversions; `fromValue` is `serde_json::from_value`. -/
def toolsFromResponsesTools (fromValue : ν → Except String (ResponsesTool φ)) :
    List ν → σ → Except ApiError (List τ × σ)
  | [], toolNames => .ok ([], toolNames)
  | value :: values, toolNames =>
    match fromValue value with
    | .error err => .error (.stream (endpoint.invalidTool err))
    | .ok tool => do
      let converted ← endpoint.responsesTool tool toolNames
      let rest ← toolsFromResponsesTools fromValue values converted.2
      .ok (converted.1 ++ rest.1, rest.2)

end Endpoint

/-- The JSON schema of a custom tool on the wire: an object with one text. -/
def customToolSchema (inputDescription : String) : Json :=
  .object
    [("type", .string "object"), ("properties", .object
        [("input", .object
          [("type", .string "string"), ("description", .string inputDescription)])]),
      ("required", .array [.string "input"]),
      ("additionalProperties", .bool false)]

def applyPatchInput : String :=
  "Raw apply_patch patch text. Do not wrap it in JSON. It must start with `*** Begin Patch`, use " ++
    "only `*** Add File:`, `*** Delete File:`, or `*** Update File:` hunks, and end with " ++
    "`*** End Patch`."

/-! ### Chat Completions -/

namespace Chat

open ChatStream

structure ResponsesFunctionTool where
  name : String
  description : Option String
  parameters : Option Json
  strict : Option Bool

/-- `ChatFunctionTool`; every declaration has the kind `function`. -/
structure ChatTool where
  name : String
  description : Option String
  parameters : Option Json
  strict : Option Bool

def insertToolNameMapping (toolNames : ChatToolNameMap) (chatName : String)
    (toolName : ChatToolName) : Except ApiError ChatToolNameMap :=
  match toolNames chatName with
  | some existing =>
    if existing ≠ toolName then
      .error (.stream ("duplicate chat tool name after namespace encoding: " ++ chatName))
    else .ok (Function.update toolNames chatName (some toolName))
  | none => .ok (Function.update toolNames chatName (some toolName))

def chatFunctionTool (tool : ResponsesFunctionTool) (toolNamespace : Option String)
    (toolNames : ChatToolNameMap) : Except ApiError (ChatTool × ChatToolNameMap) := do
  let chatName := chatFunctionName toolNamespace tool.name
  let toolNames ← insertToolNameMapping toolNames chatName ⟨toolNamespace, tool.name, false⟩
  .ok (⟨chatName, tool.description, tool.parameters, tool.strict⟩, toolNames)

def customToolInputDescription (name : String) : String :=
  if name = "apply_patch" then applyPatchInput
  else if name = "exec" then
    "Raw JavaScript source for the exec tool. Put the source in this `input` string; do not send a " ++
      "`\x7b\"cmd\": ...\x7d` object."
  else "Raw input for the custom tool."

def chatCustomTool (tool : ResponsesCustomTool) (toolNames : ChatToolNameMap) :
    Except ApiError (ChatTool × ChatToolNameMap) := do
  let toolNames ← insertToolNameMapping toolNames tool.name ⟨none, tool.name, true⟩
  .ok (⟨tool.name, tool.description,
    some (customToolSchema (customToolInputDescription tool.name)), some true⟩, toolNames)

def chatEndpoint : Endpoint ResponsesFunctionTool ChatToolNameMap ChatTool where
  functionTool := chatFunctionTool
  customTool := chatCustomTool
  invalidTool err := "invalid chat tool object: " ++ err

/-- The declarations, and the name map filled from an empty one. -/
def chatToolsFromResponsesTools {ν : Type}
    (fromValue : ν → Except String (ResponsesTool ResponsesFunctionTool)) (tools : List ν) :
    Except ApiError (List ChatTool × ChatToolNameMap) :=
  chatEndpoint.toolsFromResponsesTools fromValue tools fun _ => none

end Chat

/-! ### Anthropic -/

namespace Anthropic

structure ResponsesFunctionTool where
  name : String
  description : Option String
  parameters : Option Json

structure AnthropicTool where
  name : String
  description : Option String
  inputSchema : Json

def anthropicFunctionTool (tool : ResponsesFunctionTool) (toolNamespace : Option String)
    (toolNames : AnthropicToolNameMap) : Except ApiError (AnthropicTool × AnthropicToolNameMap) := do
  let toolNames ← toolNames.insert ⟨toolNamespace, tool.name⟩
  .ok (⟨anthropicToolName toolNamespace tool.name, tool.description,
    tool.parameters.getD (.object [("type", .string "object")])⟩, toolNames)

def customToolInputDescription (name : String) : String :=
  if name = "apply_patch" then applyPatchInput
  else "Raw input for the custom tool."

def anthropicCustomTool (tool : ResponsesCustomTool) (toolNames : AnthropicToolNameMap) :
    Except ApiError (AnthropicTool × AnthropicToolNameMap) := do
  let toolNames ← toolNames.insert ⟨none, tool.name⟩
  .ok (⟨tool.name, tool.description,
    customToolSchema (customToolInputDescription tool.name)⟩, toolNames)

def anthropicEndpoint : Endpoint ResponsesFunctionTool AnthropicToolNameMap AnthropicTool where
  functionTool := anthropicFunctionTool
  customTool := anthropicCustomTool
  invalidTool err := "invalid Anthropic tool object: " ++ err

/-- The declarations, and the name map filled from an empty one. -/
def anthropicToolsFromResponsesTools {ν : Type}
    (fromValue : ν → Except String (ResponsesTool ResponsesFunctionTool)) (tools : List ν) :
    Except ApiError (List AnthropicTool × AnthropicToolNameMap) :=
  anthropicEndpoint.toolsFromResponsesTools fromValue tools .empty

end Anthropic

/-! ### The tools behind the declarations -/

inductive ToolKind where
  | function
  | custom
  deriving DecidableEq, Repr

/-- A tool as the runtime knows it. -/
structure Tool where
  toolNamespace : Option String
  name : String
  kind : ToolKind
  deriving DecidableEq, Repr

/-- The tools that an element of the list stands for. -/
def ResponsesTool.tools {φ : Type} (nameOf : φ → String) : ResponsesTool φ → List Tool
  | .function tool => [⟨none, nameOf tool, .function⟩]
  | .namespaced name tools => tools.map fun tool => ⟨some name, nameOf tool, .function⟩
  | .custom tool => [⟨none, tool.name, .custom⟩]
  | .unknown => []

/-- The tools that a list stands for; an accepted list has no value that is no tool. -/
def toolsOf {ν φ : Type} (fromValue : ν → Except String (ResponsesTool φ)) (nameOf : φ → String)
    (values : List ν) : List Tool :=
  values.flatMap fun value =>
    match fromValue value with
    | .ok tool => tool.tools nameOf
    | .error _ => []

namespace Endpoint

variable {ν φ σ τ : Type}

/-- What one declaration does: it is named `wire tool`, and it takes the name maps `Inv` from the
tools so far to those with the tool. -/
def Declares (wire : Tool → String) (nameIn : τ → String) (Inv : σ → List Tool → Prop)
    (result : σ → Except ApiError (τ × σ)) (tool : Tool) : Prop :=
  ∀ toolNames tools declared, Inv toolNames tools → result toolNames = .ok declared →
    nameIn declared.1 = wire tool ∧ Inv declared.2 (tools ++ [tool])

variable {endpoint : Endpoint φ σ τ} {nameOf : φ → String} {wire : Tool → String}
  {nameIn : τ → String} {Inv : σ → List Tool → Prop}

/-- The declarations of a part of the list, named after its tools. -/
def Converts (wire : Tool → String) (nameIn : τ → String) (Inv : σ → List Tool → Prop)
    (result : σ → Except ApiError (List τ × σ)) (added : List Tool) : Prop :=
  ∀ toolNames tools converted, Inv toolNames tools → result toolNames = .ok converted →
    converted.1.map nameIn = added.map wire ∧ Inv converted.2 (tools ++ added)

theorem converts_nil : Converts wire nameIn Inv (fun toolNames => .ok ([], toolNames)) [] := by
  intro toolNames tools converted hinv hok
  cases hok
  exact ⟨rfl, by rwa [append_nil]⟩

variable (hfunction : ∀ toolNamespace tool, Declares wire nameIn Inv
  (endpoint.functionTool tool toolNamespace) ⟨toolNamespace, nameOf tool, .function⟩)
include hfunction

theorem functionTools_converts (toolNamespace : Option String) (functions : List φ) :
    Converts wire nameIn Inv (endpoint.functionTools toolNamespace functions)
      (functions.map fun tool => ⟨toolNamespace, nameOf tool, .function⟩) := by
  induction functions with
  | nil => exact converts_nil
  | cons function _ ih =>
    intro toolNames tools converted hinv hok
    obtain ⟨declared, hdeclared, hok⟩ := bind_eq_ok.mp hok
    obtain ⟨rest, hrest, hok⟩ := bind_eq_ok.mp hok
    cases hok
    obtain ⟨hname, hinv⟩ := hfunction toolNamespace function _ _ _ hinv hdeclared
    obtain ⟨hnames, hinv⟩ := ih _ _ _ hinv hrest
    rw [append_assoc] at hinv
    exact ⟨by rw [map_cons, hname, hnames]; rfl, hinv⟩

/-- **The loop.** Every tool of an accepted list is declared under its wire name and recorded. -/
theorem toolsFromResponsesTools_converts
    (hcustom : ∀ tool, Declares wire nameIn Inv (endpoint.customTool tool)
      ⟨none, tool.name, .custom⟩)
    (fromValue : ν → Except String (ResponsesTool φ)) (values : List ν) :
    Converts wire nameIn Inv (endpoint.toolsFromResponsesTools fromValue values)
      (toolsOf fromValue nameOf values) := by
  have helement : ∀ tool, Converts wire nameIn Inv (endpoint.responsesTool tool)
      (tool.tools nameOf) := by
    intro tool
    cases tool with
    | function tool => exact functionTools_converts hfunction none [tool]
    | namespaced name tools => exact functionTools_converts hfunction (some name) tools
    | custom tool =>
      intro toolNames tools converted hinv hok
      obtain ⟨declared, hdeclared, hok⟩ := bind_eq_ok.mp hok
      cases hok
      obtain ⟨hname, hinv⟩ := hcustom tool _ _ _ hinv hdeclared
      exact ⟨by rw [map_singleton, hname]; rfl, hinv⟩
    | unknown => exact converts_nil
  induction values with
  | nil => exact converts_nil
  | cons value _ ih =>
    intro toolNames tools converted hinv hok
    rw [toolsFromResponsesTools] at hok
    rw [toolsOf, flatMap_cons]
    rcases hvalue : fromValue value with err | tool
    · rw [hvalue] at hok
      cases hok
    rw [hvalue] at hok
    obtain ⟨element, helem, hok⟩ := bind_eq_ok.mp hok
    obtain ⟨rest, hrest, hok⟩ := bind_eq_ok.mp hok
    cases hok
    obtain ⟨hnames, hinv⟩ := helement tool _ _ _ hinv helem
    obtain ⟨hnames', hinv⟩ := ih _ _ _ hinv hrest
    rw [append_assoc] at hinv
    exact ⟨by rw [map_append, hnames, hnames', map_append]; rfl, hinv⟩

end Endpoint

end CodexPlus
