import AccessPolicy.Declaration.DataType
import AccessPolicy.Number.Binary64

/-!
# Expressions — conditions as trees

Conditions speak about three roots: the acting user, the environment of the request and the subject
instance.  Every node may carry the type that was inferred for it before; it is checked again when
the condition is compiled.
-/

namespace AccessPolicy

/-- What a condition can start from. -/
inductive Root where
  | user
  | environment
  | subject
deriving DecidableEq, Repr, Inhabited

namespace Root

def name : Root → String
  | .user => "user"
  | .environment => "environment"
  | .subject => "subject"

end Root

inductive BinaryOp where
  | eq
  | ne
  | lt
  | le
  | gt
  | ge
  | and
  | or
  | add
  | sub
  | mul
  | div
  | rem
  | isIn
deriving DecidableEq, Repr, Inhabited

namespace BinaryOp

def symbol : BinaryOp → String
  | .eq => "=="
  | .ne => "!="
  | .lt => "<"
  | .le => "<="
  | .gt => ">"
  | .ge => ">="
  | .and => "&&"
  | .or => "||"
  | .add => "+"
  | .sub => "-"
  | .mul => "*"
  | .div => "/"
  | .rem => "%"
  | .isIn => "in"

def all : List BinaryOp := [.eq, .ne, .lt, .le, .gt, .ge, .and, .or, .add, .sub, .mul, .div, .rem, .isIn]

end BinaryOp

inductive UnaryOp where
  | not
  | neg
  | plus
deriving DecidableEq, Repr, Inhabited

namespace UnaryOp

def symbol : UnaryOp → String
  | .not => "!"
  | .neg => "-"
  | .plus => "+"

def all : List UnaryOp := [.not, .neg, .plus]

end UnaryOp

/-- A condition; the last component of each node is its type annotation. -/
inductive Expression where
  | null (type? : Option DataType)
  | boolean (value : Bool) (type? : Option DataType)
  | number (value : Binary64) (type? : Option DataType)
  | string (value : String) (type? : Option DataType)
  | root (root : Root) (type? : Option DataType)
  | property (receiver : Expression) (member : String) (type? : Option DataType)
  | arrayIndex (receiver index : Expression) (type? : Option DataType)
  | binary (op : BinaryOp) (left right : Expression) (type? : Option DataType)
  | unary (op : UnaryOp) (operand : Expression) (type? : Option DataType)
  | is (operand : Expression) (concept : String) (type? : Option DataType)
deriving DecidableEq, Repr, Inhabited

namespace Expression

def declaredType? : Expression → Option DataType
  | .null t | .boolean _ t | .number _ t | .string _ t | .root _ t | .property _ _ t
  | .arrayIndex _ _ t | .binary _ _ _ t | .unary _ _ t | .is _ _ t => t

/-- The same node with another annotation. -/
def annotated (type? : Option DataType) : Expression → Expression
  | .null _ => .null type?
  | .boolean b _ => .boolean b type?
  | .number x _ => .number x type?
  | .string s _ => .string s type?
  | .root r _ => .root r type?
  | .property e m _ => .property e m type?
  | .arrayIndex e i _ => .arrayIndex e i type?
  | .binary op l r _ => .binary op l r type?
  | .unary op e _ => .unary op e type?
  | .is e c _ => .is e c type?

/-- The tree without any annotation. -/
def erase : Expression → Expression
  | .null _ => .null none
  | .boolean b _ => .boolean b none
  | .number x _ => .number x none
  | .string s _ => .string s none
  | .root r _ => .root r none
  | .property e m _ => .property e.erase m none
  | .arrayIndex e i _ => .arrayIndex e.erase i.erase none
  | .binary op l r _ => .binary op l.erase r.erase none
  | .unary op e _ => .unary op e.erase none
  | .is e c _ => .is e.erase c none

/-- Does the condition speak about the subject instance? -/
def mentionsSubject : Expression → Bool
  | .null _ | .boolean .. | .number .. | .string .. => false
  | .root r _ => r == .subject
  | .property e _ _ => e.mentionsSubject
  | .arrayIndex e i _ => e.mentionsSubject || i.mentionsSubject
  | .binary _ l r _ => l.mentionsSubject || r.mentionsSubject
  | .unary _ e _ => e.mentionsSubject
  | .is e _ _ => e.mentionsSubject

/-! ## Writing conditions -/

def user : Expression := .root .user none

def environment : Expression := .root .environment none

def subject : Expression := .root .subject none

/-- The member of an object. -/
def get (e : Expression) (member : String) : Expression := .property e member none

/-- The item of an array. -/
def item (e index : Expression) : Expression := .arrayIndex e index none

def combine (op : BinaryOp) (left right : Expression) : Expression := .binary op left right none

def equals (left right : Expression) : Expression := combine .eq left right

def and (left right : Expression) : Expression := combine .and left right

def or (left right : Expression) : Expression := combine .or left right

def not (e : Expression) : Expression := .unary .not e none

def typed (e : Expression) (type : DataType) : Expression := e.annotated (some type)

end Expression

end AccessPolicy
