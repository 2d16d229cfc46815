/-
CodexPlus/Json.lean

JSON values.  The crates modelled here build `serde_json` with `arbitrary_precision`,
so a number is the text it was written with.  An object is the list of its entries in
the order the map iterates them.

The two traversals are those the workflow input checks need: how deep a value nests,
and whether every number in it passes a test.
-/
import Mathlib.Data.List.Basic

namespace CodexPlus

/-- `serde_json::Value` -/
inductive Json where
  | null
  | bool (b : Bool)
  | number (encoded : String)
  | string (s : String)
  | array (items : List Json)
  | object (entries : List (String × Json))

namespace Json

mutual

/-- No node lies deeper than `fuel` levels, the value itself being the first level. -/
def withinDepth : Nat → Json → Bool
  | 0, _ => false
  | fuel + 1, array items => withinDepthItems fuel items
  | fuel + 1, object entries => withinDepthEntries fuel entries
  | _ + 1, _ => true

def withinDepthItems : Nat → List Json → Bool
  | _, [] => true
  | fuel, item :: items => withinDepth fuel item && withinDepthItems fuel items

def withinDepthEntries : Nat → List (String × Json) → Bool
  | _, [] => true
  | fuel, (_, value) :: entries => withinDepth fuel value && withinDepthEntries fuel entries

end

mutual

/-- Every number of the value passes `test`. -/
def allNumbers (test : String → Bool) : Json → Bool
  | number encoded => test encoded
  | array items => allNumbersItems test items
  | object entries => allNumbersEntries test entries
  | _ => true

def allNumbersItems (test : String → Bool) : List Json → Bool
  | [] => true
  | item :: items => allNumbers test item && allNumbersItems test items

def allNumbersEntries (test : String → Bool) : List (String × Json) → Bool
  | [] => true
  | (_, value) :: entries => allNumbers test value && allNumbersEntries test entries

end

mutual

/-- `canonical_json`: entries sorted by key, at every level. -/
def canonical : Json → Json
  | array items => array (canonicalItems items)
  | object entries => object ((canonicalEntries entries).mergeSort fun a b => a.1 ≤ b.1)
  | value => value

def canonicalItems : List Json → List Json
  | [] => []
  | item :: items => canonical item :: canonicalItems items

def canonicalEntries : List (String × Json) → List (String × Json)
  | [] => []
  | (key, value) :: entries => (key, canonical value) :: canonicalEntries entries

end

end Json

end CodexPlus
