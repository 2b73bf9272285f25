import Mathlib.Data.Char
import Mathlib.Data.List.Lex
import PotatoNode.Lib.LittleEndian
import PotatoNode.Lib.Table
import PotatoNode.Chain.Name

/-!
# The ABI serializer (`abi_serializer.cpp`, `abi_serializer.hpp`, `abi_def.hpp`)

An ABI names the types of a contract: structs with a base and with fields, of which the last ones
may be binary extensions, variants, and typedefs of arrays, optionals and other types. The
serializer turns values (`fc::variant`) of these types into bytes and back.

The packing functions of the built-in types and of sizes belong to `fc` and are parameters. What a
call may recurse is the number of scopes that its yield function lets it enter; a yield function
that also looks at the clock only fails more often. The path in the value that the messages name is
left out.
-/

namespace PotatoNode.Chain

open Lib FlatMap

/-! ## Values -/

/-- The characters of a `string`. -/
abbrev Text := List Char

abbrev TypeName := Text

instance : LawfulBEq Text := inferInstanceAs (LawfulBEq (List Char))

abbrev FieldName := Text

inductive Variant where
  | null
  | int64 (n : Int)
  | uint64 (n : Nat)
  | double (bits : Nat)
  | bool (b : Bool)
  | string (s : Text)
  | array (items : List Variant)
  | object (entries : List (FieldName × Variant))
  | blob (data : Bytes)

/-- `fc::variant_object`, in the order of its entries. -/
abbrev VariantObject := List (FieldName × Variant)

namespace Variant

def isNull : Variant → Bool
  | null => true
  | _ => false

def getArray : Variant → Result (List Variant)
  | array items => .ok items
  | _ => eosThrow .badCastException "Invalid cast from type '${type}' to Array"

end Variant

namespace VariantObject

/-- `mutable_variant_object::operator()`. -/
def set (obj : VariantObject) (key : FieldName) (value : Variant) : VariantObject :=
  if (obj.lookup key).isSome = true then
    obj.map fun e => if e.1 = key then (key, value) else e
  else obj ++ [(key, value)]

end VariantObject

/-! ## Definitions of an ABI -/

structure TypeDef where
  newTypeName : TypeName
  type : TypeName

structure FieldDef where
  name : FieldName
  type : TypeName

structure StructDef where
  name : TypeName
  base : TypeName
  fields : List FieldDef

structure VariantDef where
  name : TypeName
  types : List TypeName

structure ActionDef where
  name : ActionName
  type : TypeName

structure TableDef where
  name : Nat
  type : TypeName

structure ErrorMessage where
  errorCode : Nat
  errorMsg : Text

structure AbiDef where
  version : Text
  types : List TypeDef
  structs : List StructDef
  actions : List ActionDef
  tables : List TableDef
  errorMessages : List ErrorMessage
  variants : List VariantDef

/-- The two functions of a built-in type, for the type itself, arrays and optionals. -/
structure BuiltIn where
  unpack : (isArray isOptional : Bool) → Bytes → Result (Variant × Bytes)
  pack : (isArray isOptional : Bool) → Variant → Result Bytes

/-- What the serializer takes from `fc`: `fc::unsigned_int`, and `as<bytes>`. -/
structure FcRaw where
  packUnsignedInt : Nat → Bytes
  unpackUnsignedInt : Bytes → Result (Nat × Bytes)
  asBytes : Variant → Result Bytes

structure AbiSerializer where
  typedefs : FlatMap TypeName TypeName
  structs : FlatMap TypeName StructDef
  actions : FlatMap ActionName TypeName
  tables : FlatMap Nat TypeName
  errorMessages : FlatMap Nat Text
  variants : FlatMap TypeName VariantDef
  builtInTypes : TypeName → Option BuiltIn

/-! ## Names of types -/

section

variable (type : TypeName)

def isArray : Bool := ['[', ']'].isSuffixOf type

def isOptional : Bool := ['?'].isSuffixOf type

def fundamentalType : TypeName :=
  if isArray type = true then type.take (type.length - 2)
  else if isOptional type = true then type.take (type.length - 1)
  else type

/-- `ends_with(type, "$")`. -/
def isBinExtension : Bool := ['$'].isSuffixOf type

def removeBinExtension : TypeName :=
  if isBinExtension type = true then type.take (type.length - 1) else type

end

/-- A scope that the yield function does not allow. -/
def tooDeep {α : Type} : Result α :=
  eosThrow .abiRecursionDepthException "recursive definition, max_recursion_depth ${r} "

def maxRecursionDepth : Nat := 32

/-- The scopes that the standard yield function allows: their depths are less than the maximum. -/
def standardScopes : Nat := maxRecursionDepth - 1

/-- `EOS_RETHROW_EXCEPTIONS`. A `chain_exception` keeps its class. -/
def rethrowAs {α : Type} (type : ExceptionType) (message : String) (x : Result α) : Result α :=
  match x with
  | .error (.exception e) =>
    if e.type = .badCastException ∨ e.type = .keyNotFoundException ∨ e.type = .outOfRangeException
    then eosThrow type message
    else .error (.exception e)
  | .error (.stdException _) => eosThrow type message
  | x => x

namespace AbiSerializer

variable (s : AbiSerializer)

def isType : (scopes : Nat) → TypeName → Result Bool
  | 0, _ => tooDeep
  | scopes + 1, rtype =>
    let type := fundamentalType rtype
    if (s.builtInTypes type).isSome = true then .ok true
    else
      match s.typedefs.get? type with
      | some target => isType scopes target
      | none => .ok ((s.structs.get? type).isSome || (s.variants.get? type).isSome)

def chase : Nat → TypeName → Option TypeName
  | 0, _ => none
  | n + 1, t =>
    match s.typedefs.get? t with
    | none => some t
    | some target => chase n target

def resolveType (type : TypeName) : TypeName :=
  match s.typedefs.get? type with
  | none => type
  | some target => (s.chase s.typedefs.size target).getD type

def getStruct (type : TypeName) : Result StructDef :=
  match s.structs.get? (s.resolveType type) with
  | none => eosThrow .invalidTypeInsideAbi "Unknown struct ${type}"
  | some st => .ok st

/-! ## Validation -/

/-- The loop of `validate` along a chain of typedefs. -/
def checkTypedef : Nat → (typesSeen : List TypeName) → TypeName → Result Unit
  | 0, _, _ => .error .divergence
  | n + 1, typesSeen, type =>
    match s.typedefs.get? type with
    | none => .ok ()
    | some target => do
      eosAssert (target ∉ typesSeen) .abiCircularDefException "Circular reference in type ${type}"
      checkTypedef n (typesSeen ++ [target]) target

/-- The loop of `validate` along the bases of a struct. -/
def checkBases : Nat → (typesSeen : List TypeName) → (current : StructDef) → Result Unit
  | 0, _, _ => .error .divergence
  | n + 1, typesSeen, current =>
    if current.base = [] then .ok ()
    else do
      let base ← s.getStruct current.base
      eosAssert (base.name ∉ typesSeen) .abiCircularDefException
        "Circular reference in struct ${type}"
      checkBases n (typesSeen ++ [base.name]) base

def assertType (scopes : Nat) (type : TypeName) : Result Unit := do
  let known ← s.isType scopes type
  eosAssert (known = true) .invalidTypeInsideAbi "${type}"

/-- `validate`. The loops along chains see a name twice, or end, before they run out of names. -/
def validate (scopes : Nat) : Result Unit := do
  s.typedefs.entries.forM fun t => s.checkTypedef (s.typedefs.size + 1) [t.1, t.2] t.2
  s.typedefs.entries.forM fun t => s.assertType scopes t.2
  s.structs.entries.forM fun e => do
    s.checkBases (s.structs.size + 1) [e.2.name] e.2
    e.2.fields.forM fun field => s.assertType scopes (removeBinExtension field.type)
  s.variants.entries.forM fun e => e.2.types.forM fun type => s.assertType scopes type
  s.actions.entries.forM fun a => s.assertType scopes a.2
  s.tables.entries.forM fun t => s.assertType scopes t.2

def addTypedef (scopes : Nat) (s : AbiSerializer) (td : TypeDef) : Result AbiSerializer := do
  let known ← s.isType scopes td.newTypeName
  eosAssert (known = false) .duplicateAbiTypeDefException "type already exists"
  .ok { s with typedefs := s.typedefs.set td.newTypeName td.type }

def setAbi (scopes : Nat) (builtInTypes : TypeName → Option BuiltIn) (abi : AbiDef) :
    Result AbiSerializer := do
  eosAssert ("eosio::abi/1.".toList <+: abi.version) .unsupportedAbiVersionException
    "ABI has an unsupported version"
  let s : AbiSerializer := ⟨empty,
    abi.structs.foldl (fun m st => m.set st.name st) empty,
    empty, empty, empty, empty, builtInTypes⟩
  let s ← abi.types.foldlM (addTypedef scopes) s
  let s := { s with
    actions := abi.actions.foldl (fun m a => m.set a.name a.type) empty
    tables := abi.tables.foldl (fun m t => m.set t.name t.type) empty
    errorMessages :=
      abi.errorMessages.foldl (fun m e => m.set e.errorCode e.errorMsg) empty
    variants := abi.variants.foldl (fun m v => m.set v.name v) empty }
  eosAssert (s.typedefs.size = abi.types.length) .duplicateAbiTypeDefException
    "duplicate type definition detected"
  eosAssert (s.structs.size = abi.structs.length) .duplicateAbiStructDefException
    "duplicate struct definition detected"
  eosAssert (s.actions.size = abi.actions.length) .duplicateAbiActionDefException
    "duplicate action definition detected"
  eosAssert (s.tables.size = abi.tables.length) .duplicateAbiTableDefException
    "duplicate table definition detected"
  eosAssert (s.errorMessages.size = abi.errorMessages.length) .duplicateAbiErrMsgDefException
    "duplicate error message definition detected"
  eosAssert (s.variants.size = abi.variants.length) .duplicateAbiVariantDefException
    "duplicate variant definition detected"
  s.validate scopes
  .ok s

/-! ## Packing -/

section Pack

variable (pack : (allowExtensions : Bool) → TypeName → Variant → Result Bytes)
  (allowExtensions : Bool)

/-- The characters before the first NUL, as `c_str` shows them. -/
def cStr (name : FieldName) : FieldName := name.takeWhile (· ≠ Char.ofNat 0)

def packFields (vo : VariantObject) : (disallowAdditionalFields : Bool) → List FieldDef →
    Result Bytes
  | _, [] => .ok []
  | disallow, field :: rest =>
    if (vo.lookup (cStr field.name)).isSome = true then
      if disallow = true then
        eosThrow .packException
          "Unexpected field '${f}' found in input object while processing struct '${p}'"
      else
        match vo.lookup field.name with
        | none => eosThrow .keyNotFoundException "Key ${key}"
        | some value => do
          let b ← pack (allowExtensions && rest.isEmpty) (removeBinExtension field.type) value
          let bs ← packFields vo disallow rest
          .ok (b ++ bs)
    else if isBinExtension field.type = true ∧ allowExtensions = true then
      packFields vo true rest
    else if disallow = true then
      eosThrow .abiException
        "Encountered field '${f}' without binary extension designation while processing struct '${p}'"
    else
      eosThrow .packException "Missing field '${f}' in input object while processing struct '${p}'"

def packPositions : List FieldDef → List Variant → Result Bytes
  | [], _ => .ok []
  | field :: rest, value :: va => do
    let b ← pack (allowExtensions && rest.isEmpty) (removeBinExtension field.type) value
    let bs ← packPositions rest va
    .ok (b ++ bs)
  | field :: _, [] =>
    if isBinExtension field.type = true ∧ allowExtensions = true then .ok []
    else
      eosThrow .packException
        "Early end to input array specifying the fields of struct '${p}'; require input for field '${f}'"

def packBase (st : StructDef) (vo : VariantObject) : Result Bytes :=
  if st.base = [] then .ok [] else pack false (s.resolveType st.base) (.object vo)

def packStruct (st : StructDef) : Variant → Result Bytes
  | .object vo => do
    let base ← s.packBase pack st vo
    let own ← packFields pack allowExtensions vo false st.fields
    .ok (base ++ own)
  | .array va => do
    eosAssert (st.base = []) .invalidTypeInsideAbi
      "Using input array to specify the fields of the derived struct '${p}'; input arrays are currently only allowed for structs without a base"
    packPositions pack allowExtensions st.fields va
  | _ => eosThrow .packException "Unexpected input encountered while processing struct '${p}'"

def packVariant (raw : FcRaw) (v : VariantDef) : Variant → Result Bytes
  | .array [first, value] => do
    match first with
    | .string type =>
      match v.types.idxOf? type with
      | none =>
        eosThrow .packException
          "Specified type '${t}' in input array is not valid within the variant '${p}'"
      | some i => do
        let b ← pack allowExtensions type value
        .ok (raw.packUnsignedInt (i % 2 ^ 32) ++ b)
    | _ =>
      eosThrow .packException
        "Encountered non-string as first item of input array while processing variant '${p}'"
  | _ =>
    eosThrow .packException
      "Expected input to be an array of two items while processing variant '${p}'"

/-- The body of `_variant_to_binary`; `pack` is the function itself, one scope further in. -/
def packStep (raw : FcRaw) (type : TypeName) (var : Variant) : Result Bytes :=
  let rtype := s.resolveType type
  match s.builtInTypes (fundamentalType rtype) with
  | some btype => btype.pack (isArray rtype) (isOptional rtype) var
  | none =>
    if isArray rtype = true then do
      let vars ← var.getArray
      let items ← vars.mapM (pack false (fundamentalType rtype))
      .ok (raw.packUnsignedInt (vars.length % 2 ^ 32) ++ items.flatten)
    else if isOptional rtype = true then
      if var.isNull = true then .ok [0]
      else do
        let b ← pack allowExtensions (fundamentalType rtype) var
        .ok (1 :: b)
    else
      match s.variants.get? rtype with
      | some v => packVariant pack allowExtensions raw v var
      | none =>
        match s.structs.get? rtype with
        | some st => s.packStruct pack allowExtensions st var
        | none => eosThrow .invalidTypeInsideAbi "Unknown type ${type}"

end Pack

def variantToStream (raw : FcRaw) : (scopes : Nat) → (allowExtensions : Bool) → TypeName →
    Variant → Result Bytes
  | 0, _, _, _ => tooDeep
  | scopes + 1, allowExtensions, type, var =>
    s.packStep (variantToStream raw scopes) allowExtensions raw type var

/-- The size of the buffer of `_variant_to_binary`. -/
def bufferSize : Nat := 1024 * 1024

def variantToBinary (raw : FcRaw) : (scopes : Nat) → TypeName → Variant → Result Bytes
  | 0, _, _ => tooDeep
  | scopes + 1, type, var => do
    let known ← s.isType scopes type
    if known = true then
      let bytes ← s.variantToStream raw scopes true type var
      if bytes.length ≤ bufferSize then .ok bytes
      else eosThrow .outOfRangeException "datastream unexpected end of stream"
    else raw.asBytes var

/-! ## Unpacking -/

section Unpack

variable (unpack : TypeName → Bytes → Result (Variant × Bytes))
  (unpackObject : TypeName → Bytes → VariantObject → Result (VariantObject × Bytes))

def unpackItems (type : TypeName) : (size : Nat) → Bytes → Result (List Variant × Bytes)
  | 0, stream => .ok ([], stream)
  | size + 1, stream => do
    let (v, stream) ← unpack type stream
    eosAssert (v.isNull = false) .unpackException "Invalid packed array '${p}'"
    let (vars, stream) ← unpackItems type size stream
    .ok (v :: vars, stream)

def unpackFields : (encounteredExtension : Bool) → List FieldDef → Bytes → VariantObject →
    Result (VariantObject × Bytes)
  | _, [], stream, obj => .ok (obj, stream)
  | encountered, field :: rest, stream, obj =>
    let encountered := encountered || isBinExtension field.type
    if stream = [] then
      if isBinExtension field.type = true then unpackFields encountered rest stream obj
      else if encountered = true then
        eosThrow .abiException
          "Encountered field '${f}' without binary extension designation while processing struct '${p}'"
      else
        eosThrow .unpackException
          "Stream unexpectedly ended; unable to unpack field '${f}' of struct '${p}'"
    else do
      let (v, stream) ← unpack (s.resolveType (removeBinExtension field.type)) stream
      unpackFields encountered rest stream (obj.set field.name v)

def unpackBase (st : StructDef) (stream : Bytes) (obj : VariantObject) :
    Result (VariantObject × Bytes) :=
  if st.base = [] then .ok (obj, stream) else unpackObject (s.resolveType st.base) stream obj

def unpackObjectStep (type : TypeName) (stream : Bytes) (obj : VariantObject) :
    Result (VariantObject × Bytes) :=
  match s.structs.get? type with
  | none => eosThrow .invalidTypeInsideAbi "Unknown type ${type}"
  | some st => do
    let (obj, stream) ← s.unpackBase unpackObject st stream obj
    s.unpackFields unpack false st.fields stream obj

/-- The body of `_binary_to_variant`. -/
def unpackStep (raw : FcRaw) (type : TypeName) (stream : Bytes) : Result (Variant × Bytes) :=
  let rtype := s.resolveType type
  let ftype := fundamentalType rtype
  match s.builtInTypes ftype with
  | some btype =>
    rethrowAs .unpackException "Unable to unpack ${class} type '${type}' while processing '${p}'"
      (btype.unpack (isArray rtype) (isOptional rtype) stream)
  | none =>
    if isArray rtype = true then do
      let (size, stream) ← rethrowAs .unpackException "Unable to unpack size of array '${p}'"
        (raw.unpackUnsignedInt stream)
      let (vars, stream) ← unpackItems unpack ftype size stream
      eosAssert (vars.length = size) .unpackException
        "packed size does not match unpacked array size, packed size ${p} actual size ${a}"
      .ok (.array vars, stream)
    else if isOptional rtype = true then
      match stream with
      | [] => eosThrow .unpackException "Unable to unpack presence flag of optional '${p}'"
      | flag :: stream => if flag ≠ 0 then unpack ftype stream else .ok (.null, stream)
    else
      match s.variants.get? rtype with
      | some v => do
        let (select, stream) ← rethrowAs .unpackException "Unable to unpack tag of variant '${p}'"
          (raw.unpackUnsignedInt stream)
        match v.types[select]? with
        | none => eosThrow .unpackException "Unpacked invalid tag (${select}) for variant '${p}'"
        | some type => do
          let (value, stream) ← unpack type stream
          .ok (.array [.string type, value], stream)
      | none => do
        let (mvo, stream) ← unpackObject rtype stream []
        eosAssert (0 < mvo.length) .unpackException "Unable to unpack '${p}' from stream"
        .ok (.object mvo, stream)

end Unpack

mutual

def streamToVariant (raw : FcRaw) : (scopes : Nat) → TypeName → Bytes → Result (Variant × Bytes)
  | 0, _, _ => tooDeep
  | scopes + 1, type, stream =>
    s.unpackStep (streamToVariant raw scopes) (streamToObject raw scopes) raw type stream

/-- `_binary_to_variant`, for the fields of a struct. -/
def streamToObject (raw : FcRaw) : (scopes : Nat) → TypeName → Bytes → VariantObject →
    Result (VariantObject × Bytes)
  | 0, _, _, _ => tooDeep
  | scopes + 1, type, stream, obj =>
    s.unpackObjectStep (streamToVariant raw scopes) (streamToObject raw scopes) type stream obj

end

def binaryToVariant (raw : FcRaw) : (scopes : Nat) → TypeName → Bytes → Result (Variant × Bytes)
  | 0, _, _ => tooDeep
  | scopes + 1, type, binary => s.streamToVariant raw scopes type binary

end AbiSerializer

end PotatoNode.Chain
