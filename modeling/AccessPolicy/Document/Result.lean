import AccessPolicy.Cache.Recency
import AccessPolicy.Decision
import AccessPolicy.Document.Declaration
import AccessPolicy.Settings

/-!
# Result documents — compiled parts, requests and answers

The documents of everything that is not part of a declared model.
-/

namespace AccessPolicy

open Json (record? required optional withDefault tagged? noFields? word? ofTagged ofOption)

/-! ## Encoded hierarchies and masks -/

def Interval.toJson (i : Interval) : Json :=
  .obj [("left", .int i.left.toNat), ("right", .int i.right.toNat)]

def Interval.ofJson? (j : Json) : Option Interval := do
  let [left, right] ← j.record? ["left", "right"] | none
  return ⟨UInt32.ofNat (← required (Json.natOfBits? 32) left),
    UInt32.ofNat (← required (Json.natOfBits? 32) right)⟩

def NestedSet.toJson (s : NestedSet) : Json :=
  .obj [("order", .arr (s.ids.map .str)), ("intervals", .arr (s.intervals.map Interval.toJson))]

def BitCoord.toJson (c : BitCoord) : Json :=
  .obj [("byte_index", .int c.byteIndex), ("bit_index", .int c.bitIndex.toNat)]

def BitCoord.ofJson? (j : Json) : Option BitCoord := do
  let [byteIndex, bitIndex] ← j.record? ["byte_index", "bit_index"] | none
  return ⟨← required (Json.natOfBits? 64) byteIndex,
    UInt8.ofNat (← required (Json.natOfBits? 8) bitIndex)⟩

def Bitmask.toJson (m : Bitmask) : Json :=
  .obj [("bytes", .arr (m.bytes.map fun byte => .int byte.toNat))]

def Bitmask.ofJson? (j : Json) : Option Bitmask := do
  let [bytes] ← j.record? ["bytes"] | none
  return ⟨(← required (Json.list? (Json.natOfBits? 8)) bytes).map UInt8.ofNat⟩

def ActionClosure.toJson (c : ActionClosure) : Json :=
  .obj [("allow", c.allow.toJson), ("forbid", c.forbid.toJson)]

def ActionClosure.ofJson? (j : Json) : Option ActionClosure := do
  let [allow, forbid] ← j.record? ["allow", "forbid"] | none
  return ⟨← required Bitmask.ofJson? allow, ← required Bitmask.ofJson? forbid⟩

/-! ## Condition graphs -/

def NodeIndex.toJson (i : NodeIndex) : Json := .int i.raw.toInt

def NodeIndex.ofJson? (j : Json) : Option NodeIndex :=
  (j.intIn? (-Int.pow 2 31) (Int.pow 2 31)).map fun n => ⟨Int32.ofInt n⟩

namespace Node

def kinds : List String :=
  ["null", "boolean", "number", "string", "built-in", "get-property", "array-get", "binary",
    "unary", "is"]

def toJson : Node → Json
  | .null => ofTagged "op" "null" []
  | .boolean b => ofTagged "op" "boolean" [("value", .bool b)]
  | .number x => ofTagged "op" "number" [("value", .number x)]
  | .string s => ofTagged "op" "string" [("value", .str s)]
  | .root r => ofTagged "op" "built-in" [("object", r.toJson)]
  | .property e m => ofTagged "op" "get-property" [("receiver", e.toJson), ("property", .str m)]
  | .arrayItem e i => ofTagged "op" "array-get" [("receiver", e.toJson), ("index", i.toJson)]
  | .binary op l r =>
    ofTagged "op" "binary" [("operator", op.toJson), ("left", l.toJson), ("right", r.toJson)]
  | .unary op e => ofTagged "op" "unary" [("operator", op.toJson), ("operand", e.toJson)]
  | .is c e => ofTagged "op" "is" [("concept", .str c), ("operand", e.toJson)]

def ofJson? (j : Json) : Option Node := do
  let (kind, content) ← j.tagged? "op" false kinds
  match kind with
  | "null" => content.noFields?.map fun _ => .null
  | "boolean" =>
    let [value] ← content.record? ["value"] | none
    return .boolean (← required Json.bool? value)
  | "number" =>
    let [value] ← content.record? ["value"] | none
    return .number (← required Json.float? value)
  | "string" =>
    let [value] ← content.record? ["value"] | none
    return .string (← required Json.string? value)
  | "built-in" =>
    let [start] ← content.record? ["object"] | none
    return .root (← required (Root.ofJson? true) start)
  | "get-property" =>
    let [receiver, member] ← content.record? ["receiver", "property"] | none
    return .property (← required NodeIndex.ofJson? receiver) (← required Json.string? member)
  | "array-get" =>
    let [receiver, index] ← content.record? ["receiver", "index"] | none
    return .arrayItem (← required NodeIndex.ofJson? receiver) (← required NodeIndex.ofJson? index)
  | "binary" =>
    let [op, left, right] ← content.record? ["operator", "left", "right"] | none
    return .binary (← required (BinaryOp.ofJson? true) op) (← required NodeIndex.ofJson? left)
      (← required NodeIndex.ofJson? right)
  | "unary" =>
    let [op, operand] ← content.record? ["operator", "operand"] | none
    return .unary (← required (UnaryOp.ofJson? true) op) (← required NodeIndex.ofJson? operand)
  | "is" =>
    let [concept, operand] ← content.record? ["concept", "operand"] | none
    return .is (← required Json.string? concept) (← required NodeIndex.ofJson? operand)
  | _ => none

end Node

def TypedNode.toJson (n : TypedNode) : Json :=
  .obj [("index", n.index.toJson), ("opcode", n.node.toJson), ("type", n.type.toJson)]

def TypedNode.ofJson? (j : Json) : Option TypedNode := do
  let [index, node, type] ← j.record? ["index", "opcode", "type"] | none
  return ⟨← required NodeIndex.ofJson? index, ← required Node.ofJson? node,
    ← required (DataType.ofJson? false) type⟩

def Rule.toJson (r : Rule) : Json :=
  .obj [("actions", .arr (r.actions.map fun (bit : Nat) => .int bit)),
    ("condition", r.condition.toJson), ("mode", r.mode.toJson), ("mask", r.mask.toJson)]

def Rule.ofJson? (j : Json) : Option Rule := do
  let [actions, condition, mode, mask] ← j.record? ["actions", "condition", "mode", "mask"] | none
  return ⟨← required (Json.list? (Json.natOfBits? 64)) actions,
    ← required NodeIndex.ofJson? condition, ← required (AccessMode.ofJson? false) mode,
    ← required Bitmask.ofJson? mask⟩

/-! ## Settings and counts -/

def capacityToJson (capacity : Nat) : Json := .obj [("capacity", .int capacity)]

def capacityOfJson? (j : Json) : Option Nat := do
  let [capacity] ← j.record? ["capacity"] | none
  required (Json.natOfBits? 64) capacity

def Settings.toJson (s : Settings) : Json :=
  .obj [("cache", capacityToJson s.capacity), ("strict_roles", .bool s.strictRoles)]

def Settings.ofJson? (j : Json) : Option Settings := do
  let [cache, strictRoles] ← j.record? ["cache", "strict_roles"] | none
  let defaults : Settings := {}
  return ⟨← withDefault defaults.capacity capacityOfJson? cache,
    ← withDefault defaults.strictRoles Json.bool? strictRoles⟩

def CacheStats.toJson (s : CacheStats) : Json :=
  .obj [("hits", .int s.hits), ("misses", .int s.misses), ("evictions", .int s.evictions),
    ("entries", .int s.entries), ("capacity", .int s.capacity)]

def CacheStats.ofJson? (j : Json) : Option CacheStats := do
  let [hits, misses, evictions, entries, capacity] ←
    j.record? ["hits", "misses", "evictions", "entries", "capacity"] | none
  let count := required (Json.natOfBits? 64)
  return ⟨← count hits, ← count misses, ← count evictions, ← count entries, ← count capacity⟩

/-! ## Requests and decisions -/

def AccessRequest.toJson (r : AccessRequest) : Json :=
  .obj [("user", r.user), ("environment", r.environment), ("roles", .arr (r.roles.map .str)),
    ("subject", .str r.subject), ("instance", r.resource)]

def AccessRequest.ofJson? (j : Json) : Option AccessRequest := do
  let [user, environment, roles, subject, resource] ←
    j.record? ["user", "environment", "roles", "subject", "instance"] | none
  return {
    user := ← user
    environment := environment.getD .null
    roles := ← withDefault [] (Json.list? Json.string?) roles
    subject := ← required Json.string? subject
    resource := ← resource }

def MatchedRule.toJson (m : MatchedRule) : Json :=
  .obj [("role", .str m.role), ("rule_index", .int m.ruleIndex), ("mode", m.mode.toJson)]

def MatchedRule.ofJson? (j : Json) : Option MatchedRule := do
  let [role, ruleIndex, mode] ← j.record? ["role", "rule_index", "mode"] | none
  return ⟨← required Json.string? role, ← required (Json.natOfBits? 64) ruleIndex,
    ← required (AccessMode.ofJson? false) mode⟩

def Resolution.toJson (r : Resolution) : Json := .str r.name

def Resolution.ofJson? : Json → Option Resolution :=
  word? false (Resolution.all.map fun r => (r.name, r))

def AccessDecision.toJson (d : AccessDecision) : Json :=
  .obj [("allowed", .bool d.allowed), ("subject", .str d.subject), ("action", .str d.action),
    ("matched", .arr (d.matched.map MatchedRule.toJson)), ("resolution", d.resolution.toJson)]

def AccessDecision.ofJson? (j : Json) : Option AccessDecision := do
  let [allowed, subject, action, matched, resolution] ←
    j.record? ["allowed", "subject", "action", "matched", "resolution"] | none
  return ⟨← required Json.bool? allowed, ← required Json.string? subject,
    ← required Json.string? action, ← required (Json.list? MatchedRule.ofJson?) matched,
    ← required Resolution.ofJson? resolution⟩

end AccessPolicy
