/-
CodexPlus/WorkflowInputs.lean

The checks on values that cross the workflow tool boundary (`workflow/src/inputs.rs`):
the nesting guard, the test that JavaScript keeps every number exactly, and the digest
of an agent call's named inputs.

`f64` parsing and printing, SHA-256 and `serde_json`'s printer come from outside the
repository; they are the fields of `WorkflowHost`, together with the artifact store,
which a host may implement in any way.
-/
import CodexPlus.Json
import CodexPlus.Text
import Mathlib

namespace CodexPlus

namespace Workflow

/-! ### Numbers -/

/-- The floating-point operations the number check uses. -/
structure FloatOps where
  F64 : Type
  /-- `Number::as_f64` -/
  parse : String → Option F64
  /-- `Number::from_f64` and `to_string`; `none` when not finite -/
  print : F64 → Option String
  isFinite : F64 → Bool
  /-- `fract() == 0.0` -/
  isIntegral : F64 → Bool
  /-- `abs() >= MIN_JAVASCRIPT_UNSAFE_INTEGER` -/
  absIsUnsafe : F64 → Bool

def maxJavascriptSafeInteger : Nat := 2 ^ 53 - 1

/-- The value of a non-empty string of ASCII digits. -/
def parseDigits (cs : List Char) : Option Nat :=
  if cs ≠ [] && cs.all Char.isDigit then
    some (cs.foldl (fun n c => 10 * n + (c.toNat - '0'.toNat)) 0)
  else none

/-- `str::parse::<u64>` -/
def parseU64 (cs : List Char) : Option Nat :=
  let unsigned := match cs with
    | '+' :: rest => rest
    | _ => cs
  (parseDigits unsigned).filter (· < 2 ^ 64)

/-- `str::parse::<i64>` -/
def parseI64 (cs : List Char) : Option Int :=
  match cs with
  | '-' :: rest => ((parseDigits rest).filter (· ≤ 2 ^ 63)).map fun n => -(n : Int)
  | '+' :: rest => ((parseDigits rest).filter (· < 2 ^ 63)).map Int.ofNat
  | _ => ((parseDigits cs).filter (· < 2 ^ 63)).map Int.ofNat

/-- The digits of a mantissa and how many of them follow the point. -/
def mantissaDigits : List Char → Bool → Option (List Char × Nat)
  | [], _ => some ([], 0)
  | c :: cs, decimalSeen =>
    if c.isDigit then
      (mantissaDigits cs decimalSeen).map fun (digits, fractional) =>
        (c :: digits, fractional + if decimalSeen then 1 else 0)
    else if c = '.' && !decimalSeen then mantissaDigits cs true
    else none

def inI64 (n : Int) : Option Int := if -(2 ^ 63) ≤ n ∧ n < 2 ^ 63 then some n else none

/-- `canonical_decimal`: sign, significant digits and exponent. -/
def canonicalDecimal (encoded : String) : Option (Bool × String × Int) :=
  match encoded.toList with
  | [] => none
  | first :: rest =>
    let negative := first = '-'
    let unsigned := if first = '-' || first = '+' then rest else first :: rest
    let mantissa := unsigned.takeWhile fun c => c ≠ 'e' && c ≠ 'E'
    let exponent : Option Int :=
      match unsigned.dropWhile fun c => c ≠ 'e' && c ≠ 'E' with
      | [] => some 0
      | _ :: digits => parseI64 digits
    match exponent, mantissaDigits mantissa false with
    | some explicit, some (digits, fractional) =>
      if digits = [] then none
      else
        let significant := digits.dropWhile (· = '0')
        if significant = [] then some (negative, "0", 0)
        else
          let kept := significant.rdropWhile (· = '0')
          let trailingZeros := significant.length - kept.length
          ((inI64 (explicit - fractional)).bind fun e => inI64 (e + trailingZeros)).map
            fun e => (negative, String.ofList kept, e)
    | _, _ => none

variable (f : FloatOps)

/-- `javascript_number_round_trips` -/
def javascriptNumberRoundTrips (encoded : String) (number : f.F64) : Bool :=
  match f.print number with
  | none => false
  | some roundTrip => canonicalDecimal encoded = canonicalDecimal roundTrip

/-- The test `validate_v8_lossless_json_numbers` makes on one number. -/
def losslessNumber (encoded : String) : Bool :=
  let cs := encoded.toList
  let integerIsSafe :=
    (parseI64 cs).any (fun i => i.natAbs ≤ maxJavascriptSafeInteger) ||
      (parseU64 cs).any (· ≤ maxJavascriptSafeInteger)
  if integerIsSafe then (f.parse encoded).any (javascriptNumberRoundTrips f encoded)
  else if (parseI64 cs).isNone && (parseU64 cs).isNone && !cs.contains '.' &&
      !cs.contains 'e' && !cs.contains 'E' then false
  else (f.parse encoded).any fun x =>
    f.isFinite x && !(f.isIntegral x && f.absIsUnsafe x) && javascriptNumberRoundTrips f encoded x

/-! ### Values -/

def exactIntegerGuidance : String :=
  "represent exact integer identifiers as strings so JavaScript preserves their precision"

def inputRecursionGuidance : String := "use a flatter structured value for workflow inputs"

def workflowInputRecursionGuard : Nat := 256

/-- `validate_v8_lossless_json_numbers` -/
def validateV8LosslessJsonNumbers (value : Json) (boundary : String) : Except String Unit :=
  if value.allNumbers (losslessNumber f) then .ok ()
  else .error (boundary ++ ": " ++ exactIntegerGuidance)

/-- `validate_workflow_input_recursion` -/
def validateWorkflowInputRecursion (value : Json) : Except String Unit :=
  if value.withinDepth workflowInputRecursionGuard then .ok () else .error inputRecursionGuidance

/-- `validate_workflow_input_value` -/
def validateWorkflowInputValue (value : Json) (boundary : String) :
    Except String Unit := do
  validateWorkflowInputRecursion value
  validateV8LosslessJsonNumbers f value boundary

/-! ### Artifacts -/

/-- `WorkflowInputArtifactKind` -/
inductive WorkflowInputArtifactKind where
  | value
  | descriptor
  deriving DecidableEq

/-- `WorkflowInputArtifactRef` -/
structure WorkflowInputArtifactRef where
  sha256 : String
  kind : WorkflowInputArtifactKind
  deriving DecidableEq

/-- What lies outside the repository, and the host's artifact store. -/
structure WorkflowHost where
  float : FloatOps
  /-- SHA-256 as lower-case hexadecimal text -/
  sha256 : List UInt8 → String
  /-- `serde_json::to_string` of a sorted map -/
  toJsonText : List (String × Json) → String
  /-- `WorkflowInputArtifactStore::put` -/
  put : Json → Except String WorkflowInputArtifactRef

def utf8 (s : String) : List UInt8 := s.toUTF8.toList

/-- `u64::to_be_bytes` -/
def toBeBytes (n : Nat) : List UInt8 :=
  (List.range 8).map fun i => UInt8.ofNat (n / 256 ^ (7 - i))

/-- `validate_artifact_sha256` -/
def validateArtifactSha256 (sha256 : String) : Except String Unit :=
  let cs := sha256.toList
  let isHexDigit (c : Char) : Bool :=
    c.isDigit || ('a' ≤ c && c ≤ 'f') || ('A' ≤ c && c ≤ 'F')
  if sha256.utf8ByteSize = 64 && cs.all isHexDigit then .ok ()
  else .error "provide a SHA-256 workflow input artifact reference"

/-- `validate_aliases` -/
def validateAliases (inputs : List (String × WorkflowInputArtifactRef)) : Except String Unit :=
  if inputs = [] then
    .error "provide at least one named structured value through agent(..., \x7b inputs \x7d)"
  else if inputs.any fun (name, _) => trim name.toList = [] then
    .error "provide a short name for every workflow agent input"
  else .ok ()

/-- `workflow_agent_inputs_sha256`; the map lists its aliases in increasing order. -/
def workflowAgentInputsSha256 (host : WorkflowHost) :
    Option (List (String × WorkflowInputArtifactRef)) → Except String (Option String)
  | none => .ok none
  | some inputs => do
    validateAliases inputs
    inputs.forM fun (_, reference) => validateArtifactSha256 reference.sha256
    return some (host.sha256 (inputs.flatMap fun (name, reference) =>
      toBeBytes name.utf8ByteSize ++ utf8 name ++ utf8 reference.sha256))

end Workflow

end CodexPlus
