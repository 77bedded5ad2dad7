import AccessPolicy.Declaration.Expression
import AccessPolicy.Graph.Index
import AccessPolicy.Hierarchy.Basic

/-!
# Errors — why a policy or a request is refused

A model is refused for how it is put together or for a condition that does not type-check; a
request is refused for a name that the policy does not know.
-/

namespace AccessPolicy

/-- What is wrong with the type of a node. -/
inductive TypeFault where
  | noEnvironment
  | danglingOperand
  | unknownMember (member concept : String)
  | missingMember (member : String)
  | receiverNotObject (type : DataType)
  | receiverNotArray (type : DataType)
  | indexNotNumber (type : DataType)
  | operandTypes (op : BinaryOp) (left right : DataType)
  | operandNotNumber (op : UnaryOp) (type : DataType)
  | unknownConcept (name : String)
  | testedNotObject (type : DataType)
  | typeMismatch (annotated derived : DataType)
deriving DecidableEq, Repr

namespace TypeFault

/-- The part of the node that is at fault. -/
def field : TypeFault → String
  | .noEnvironment => "environment"
  | .danglingOperand => "operand"
  | .unknownMember .. => "property"
  | .missingMember _ => "property"
  | .receiverNotObject _ => "receiver"
  | .receiverNotArray _ => "receiver"
  | .indexNotNumber _ => "index"
  | .operandTypes .. => "operator"
  | .operandNotNumber .. => "operand"
  | .unknownConcept _ => "type"
  | .testedNotObject _ => "operand"
  | .typeMismatch .. => "type"

def message : TypeFault → String
  | .noEnvironment => "no environment concept is declared"
  | .danglingOperand => "dangling operand index"
  | .unknownMember member concept =>
    "property '" ++ member ++ "' not found in concept '" ++ concept ++ "'"
  | .missingMember member => "property '" ++ member ++ "' not found in object type"
  | .receiverNotObject type => "receiver of type '" ++ type.describe ++ "' is not an object"
  | .receiverNotArray type => "receiver of type '" ++ type.describe ++ "' is not an array"
  | .indexNotNumber type => "array index must be a number, found '" ++ type.describe ++ "'"
  | .operandTypes op left right =>
    "operator '" ++ op.symbol ++ "' cannot combine '" ++ left.describe ++ "' and '"
      ++ right.describe ++ "'"
  | .operandNotNumber op type =>
    "operator '" ++ op.symbol ++ "' requires a number, found '" ++ type.describe ++ "'"
  | .unknownConcept name => "unknown concept '" ++ name ++ "'"
  | .testedNotObject type => "type test on non-object type '" ++ type.describe ++ "'"
  | .typeMismatch annotated derived =>
    "annotated type '" ++ annotated.describe ++ "' does not match derived type '"
      ++ derived.describe ++ "'"

end TypeFault

/-- What is wrong with a model or with the settings. -/
inductive ConfigurationFault where
  | hierarchy (error : HierarchyError)
  | actionHierarchy (subject : String) (error : HierarchyError)
  | memberConcept (concept member unknown : String)
  | unknownConcept (owner name : String)
  | duplicateSubject (name : String)
  | duplicateRole (name : String)
  | unknownSubject (role subject : String)
  | unknownAction (role action subject : String)
  | unregisteredSubject (id : Nat)
  | misplacedNode (index : NodeIndex) (position : Nat) (table : String)
  | operandOutOfOrder (index operand : NodeIndex)
  | zeroCapacity
  | invalidSetting (text setting : String)
deriving DecidableEq, Repr

namespace ConfigurationFault

def message : ConfigurationFault → String
  | .hierarchy error => error.message
  | .actionHierarchy subject error => "Subject '" ++ subject ++ "': " ++ error.message
  | .memberConcept concept member unknown =>
    "Member '" ++ concept ++ "." ++ member ++ "' references unknown concept '" ++ unknown ++ "'"
  | .unknownConcept owner name => "'" ++ owner ++ "' references unknown concept '" ++ name ++ "'"
  | .duplicateSubject name => "Duplicate subject '" ++ name ++ "'"
  | .duplicateRole name => "Duplicate role '" ++ name ++ "'"
  | .unknownSubject role subject =>
    "Role '" ++ role ++ "' references unknown subject '" ++ subject ++ "'"
  | .unknownAction role action subject =>
    "Role '" ++ role ++ "' references unknown action '" ++ action ++ "' on subject '"
      ++ subject ++ "'"
  | .unregisteredSubject id => "unregistered subject id " ++ toString id
  | .misplacedNode index position table =>
    "Expression " ++ index.text ++ " stored at slot " ++ toString position ++ " of the " ++ table
      ++ " table"
  | .operandOutOfOrder index operand =>
    "Expression " ++ index.text ++ " references " ++ operand.text ++ " out of order"
  | .zeroCapacity => "Cache capacity must be at least 1"
  | .invalidSetting text setting => "Invalid value '" ++ text ++ "' for " ++ setting

end ConfigurationFault

/-- What a request names that the policy does not know. -/
inductive UsageFault where
  | unknownSubject (name : String)
  | unknownAction (action subject : String)
  | unknownRole (name : String)
deriving DecidableEq, Repr

namespace UsageFault

def message : UsageFault → String
  | .unknownSubject name => "Unknown subject '" ++ name ++ "'"
  | .unknownAction action subject =>
    "Unknown action '" ++ action ++ "' for subject '" ++ subject ++ "'"
  | .unknownRole name => "Unknown role '" ++ name ++ "'"

end UsageFault

inductive PolicyError where
  | configuration (fault : ConfigurationFault)
  | typeInference (expression : String) (fault : TypeFault)
  | usage (fault : UsageFault)
deriving DecidableEq, Repr

namespace PolicyError

def message : PolicyError → String
  | .configuration fault => "Configuration error: " ++ fault.message
  | .typeInference expression fault =>
    "Type inference failed for `" ++ expression ++ "` (" ++ fault.field ++ "): " ++ fault.message
  | .usage fault => "Usage error: " ++ fault.message

end PolicyError

end AccessPolicy
