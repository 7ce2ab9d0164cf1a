import MiniRuby.Machine

/-!
# Catalogue

The native methods with the names that programs know them by, class by class.  The order is that
in which the names enter the table of names.
-/

namespace MiniRuby

/-- A native method of the instances of a class. -/
structure NativeEntry where
  owner : ClassId
  name : String
  arity : Arity
  op : Native

namespace Catalogue

/-- The entries of a class. -/
def of (owner : ClassId) (entries : List (String × Arity × Native)) : List NativeEntry :=
  entries.map fun (name, arity, op) => ⟨owner, name, arity, op⟩

def noArgs : Arity := .exact 0

def oneArg : Arity := .exact 1

def anyArgs : Arity := .atLeast 0

/-- What all objects have. -/
def basic : List (String × Arity × Native) := [
  ("==", oneArg, .object .same),
  ("!=", oneArg, .object .differs),
  ("!", noArgs, .object .negate),
  ("equal?", oneArg, .object .same),
  ("initialize", noArgs, .object .setup)]

/-- What all objects but the barest have. -/
def objects : List (String × Arity × Native) := [
  ("class", noArgs, .object .classOf),
  ("inspect", noArgs, .object .inspect),
  ("to_s", noArgs, .object .toS),
  ("nil?", noArgs, .object .isNil),
  ("is_a?", oneArg, .object .isA),
  ("kind_of?", oneArg, .object .isA),
  ("instance_of?", oneArg, .object .instanceOf),
  ("respond_to?", oneArg, .object .respondTo),
  ("object_id", noArgs, .object .objectId),
  ("send", .atLeast 1, .object .send),
  ("method", oneArg, .object .bind),
  ("instance_variable_get", oneArg, .object .variableGet),
  ("instance_variable_set", .exact 2, .object .variableSet),
  ("instance_variables", noArgs, .object .variableNames),
  ("puts", anyArgs, .kernel .puts),
  ("print", anyArgs, .kernel .print),
  ("p", anyArgs, .kernel .p),
  ("raise", .between 0 2, .kernel .raise),
  ("assert", .exact 2, .kernel .assert)]

def classes : List (String × Arity × Native) := [
  ("new", anyArgs, .cls .new),
  ("name", noArgs, .cls .name),
  ("to_s", noArgs, .cls .name),
  ("inspect", noArgs, .cls .name),
  ("superclass", noArgs, .cls .parent),
  ("ancestors", noArgs, .cls .ancestors),
  ("instance_methods", .between 0 1, .cls .methods),
  ("method_defined?", oneArg, .cls .definesMethod),
  ("remove_method", anyArgs, .cls .removeMethod),
  ("===", oneArg, .cls .covers),
  ("attr_reader", anyArgs, .cls .readers),
  ("attr_writer", anyArgs, .cls .writers),
  ("attr_accessor", anyArgs, .cls .accessors)]

def nilClass : List (String × Arity × Native) := [
  ("&", oneArg, .truth (.always false)),
  ("|", oneArg, .truth .argument),
  ("nil?", noArgs, .truth (.always true)),
  ("to_a", noArgs, .truth .noElements),
  ("to_s", noArgs, .truth (.text "")),
  ("inspect", noArgs, .truth (.text "nil"))]

def trueClass : List (String × Arity × Native) := [
  ("&", oneArg, .truth .argument),
  ("|", oneArg, .truth (.always true)),
  ("to_s", noArgs, .truth (.text "true")),
  ("inspect", noArgs, .truth (.text "true"))]

def falseClass : List (String × Arity × Native) := [
  ("&", oneArg, .truth (.always false)),
  ("|", oneArg, .truth .argument),
  ("to_s", noArgs, .truth (.text "false")),
  ("inspect", noArgs, .truth (.text "false"))]

/-- The comparisons that integers and floats have in common. -/
def order : List (String × Arity × Native) := [
  ("==", oneArg, .order .equals),
  ("<=>", oneArg, .order .compare),
  ("<", oneArg, .order .less),
  ("<=", oneArg, .order .atMost),
  (">", oneArg, .order .greater),
  (">=", oneArg, .order .atLeast)]

def integers : List (String × Arity × Native) := [
  ("+", oneArg, .integer .add),
  ("-", oneArg, .integer .sub),
  ("*", oneArg, .integer .mul),
  ("/", oneArg, .integer .div),
  ("%", oneArg, .integer .mod),
  ("**", oneArg, .integer .pow),
  ("-@", noArgs, .integer .neg)] ++ order ++ [
  ("to_s", noArgs, .integer .toS),
  ("inspect", noArgs, .integer .toS),
  ("to_i", noArgs, .integer .toI),
  ("to_f", noArgs, .integer .toF),
  ("abs", noArgs, .integer .abs),
  ("succ", noArgs, .integer .succ),
  ("zero?", noArgs, .integer .isZero),
  ("even?", noArgs, .integer .isEven),
  ("odd?", noArgs, .integer .isOdd)]

def floats : List (String × Arity × Native) := [
  ("+", oneArg, .float .add),
  ("-", oneArg, .float .sub),
  ("*", oneArg, .float .mul),
  ("/", oneArg, .float .div),
  ("%", oneArg, .float .mod),
  ("**", oneArg, .float .pow),
  ("-@", noArgs, .float .neg)] ++ order ++ [
  ("to_s", noArgs, .float .toS),
  ("inspect", noArgs, .float .toS),
  ("to_i", noArgs, .float .toI),
  ("to_f", noArgs, .float .toF),
  ("floor", noArgs, .float .floor),
  ("ceil", noArgs, .float .ceil),
  ("round", noArgs, .float .round),
  ("abs", noArgs, .float .abs),
  ("nan?", noArgs, .float .isNaN)]

def strings : List (String × Arity × Native) := [
  ("+", oneArg, .string .concat),
  ("<<", oneArg, .string .append),
  ("*", oneArg, .string .times),
  ("==", oneArg, .string .equals),
  ("size", noArgs, .string .size),
  ("length", noArgs, .string .size),
  ("empty?", noArgs, .string .isEmpty),
  ("include?", oneArg, .string .includes),
  ("start_with?", oneArg, .string .startsWith),
  ("upcase", noArgs, .string .upcase),
  ("downcase", noArgs, .string .downcase),
  ("reverse", noArgs, .string .reverse),
  ("to_s", noArgs, .string .toS),
  ("to_sym", noArgs, .string .toSym),
  ("to_i", noArgs, .string .toI),
  ("inspect", noArgs, .string .inspect)]

def symbols : List (String × Arity × Native) := [
  ("to_s", noArgs, .symbol .toS),
  ("to_sym", noArgs, .symbol .toSym),
  ("inspect", noArgs, .symbol .inspect)]

def arrays : List (String × Arity × Native) := [
  ("[]", oneArg, .array .get),
  ("[]=", .exact 2, .array .set),
  ("push", anyArgs, .array .push),
  ("<<", oneArg, .array .push),
  ("pop", noArgs, .array .pop),
  ("first", noArgs, .array .first),
  ("last", noArgs, .array .last),
  ("size", noArgs, .array .size),
  ("length", noArgs, .array .size),
  ("empty?", noArgs, .array .isEmpty),
  ("include?", oneArg, .array .includes),
  ("+", oneArg, .array .concat),
  ("==", oneArg, .array .equals),
  ("join", .between 0 1, .array .join),
  ("reverse", noArgs, .array .reverse),
  ("inspect", noArgs, .array .inspect),
  ("to_s", noArgs, .array .inspect)]

def bounds : List (String × Arity × Native) := [
  ("call", anyArgs, .bound .call),
  ("arity", noArgs, .bound .arity),
  ("name", noArgs, .bound .name),
  ("owner", noArgs, .bound .owner),
  ("receiver", noArgs, .bound .receiver),
  ("inspect", noArgs, .bound .inspect)]

def exceptions : List (String × Arity × Native) := [
  ("initialize", .between 0 1, .exception .setup),
  ("message", noArgs, .exception .message),
  ("to_s", noArgs, .exception .message),
  ("inspect", noArgs, .exception .inspect)]

/-- All native methods. -/
def entries : List NativeEntry :=
  of .basicObject basic ++ of .object objects ++ of .classes classes ++ of .nilClass nilClass
    ++ of .trueClass trueClass ++ of .falseClass falseClass ++ of .integer integers
    ++ of .float floats ++ of .string strings ++ of .symbol symbols ++ of .array arrays
    ++ of .method bounds ++ of .exception exceptions

end Catalogue

end MiniRuby
