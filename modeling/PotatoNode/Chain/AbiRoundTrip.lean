import PotatoNode.Lib.Varuint
import PotatoNode.Chain.AbiValidation

/-!
# ABI round trip

Bytes that `variant_to_binary` produces, `binary_to_variant` should read to their end, and the value
that it makes of them should pack to the same bytes. The value need not be the one that was packed:
structs may be given as arrays, and packers may take several values for one.

Encoder and decoder differ in some cases. `valueTrip` goes through a value as the encoder does and
says what becomes of it: it comes back, or the decoder refuses it (a null in an array, a struct
without fields, an array that ends before a field that is no extension, too many scopes), or a name
or a number is taken for another one (two fields of one name, say), in which case nothing is said.
-/

namespace PotatoNode.Chain

open Lib List Option Nat FlatMap

/-- What the packer of a built-in type writes, at least one byte, its unpacker reads; the value that
is read may differ from the one that was written, but it is written alike. Only optionals are read
as null, if null was written. -/
structure BuiltIn.Inverse (b : BuiltIn) : Prop where
  ne_nil : ∀ array optional v bytes, b.pack array optional v = .ok bytes → bytes ≠ []
  recovers : ∀ array optional v bytes, b.pack array optional v = .ok bytes →
    ∃ v', b.pack array optional v' = .ok bytes ∧ v'.isNull = (optional && v.isNull)
      ∧ ∀ rest, b.unpack array optional (bytes ++ rest) = .ok (v', rest)

/-- Sizes of 32 bits are read as they were written. -/
structure FcRaw.Inverse (raw : FcRaw) : Prop where
  ne_nil : ∀ n, raw.packUnsignedInt n ≠ []
  recovers : ∀ n rest, n < 2 ^ 32 →
    raw.unpackUnsignedInt (raw.packUnsignedInt n ++ rest) = .ok (n, rest)

/-! ## What becomes of a value -/

inductive Trip where
  /-- it is unpacked, and packs to the same bytes -/
  | back
  /-- it is packed, and not unpacked -/
  | refused
  /-- a name or a number is taken for another one -/
  | confused
deriving DecidableEq

namespace Trip

def andThen : Trip → Trip → Trip
  | .back, next => next
  | trip, _ => trip

variable {a b : Trip}

theorem andThen_eq_back : a.andThen b = .back ↔ a = .back ∧ b = .back := by
  cases a with
  | back | refused | confused => simp [andThen]

theorem andThen_eq_refused :
    a.andThen b = .refused ↔ a = .refused ∨ a = .back ∧ b = .refused := by
  cases a with
  | back | refused | confused => simp [andThen]

end Trip

namespace AbiSerializer

section Trips

variable (s : AbiSerializer) (value : TypeName → Variant → Trip)

/-- The elements of an array; the decoder does not take null. -/
def itemsTrip (type : TypeName) : List Variant → Trip
  | [] => .back
  | v :: vars => (value type v).andThen
    (if (isOptional (s.resolveType type) && v.isNull) = true then .refused else itemsTrip type vars)

/-- An extension that takes no bytes would be taken for a missing one. -/
def fieldTrip (field : FieldDef) (v : Variant) : Trip :=
  match value (removeBinExtension field.type) v with
  | .refused => if isBinExtension field.type = true then .confused else .refused
  | trip => trip

/-- The fields of a struct, as far as there are values for them; the decoder takes only extensions
for missing. -/
def fieldsTrip : List FieldDef → List Variant → Trip
  | [], _ => .back
  | field :: rest, v :: vars => (fieldTrip value field v).andThen (fieldsTrip rest vars)
  | field :: rest, [] =>
    if ∀ f ∈ field :: rest, isBinExtension f.type = true then .back else .refused

def givenValues (fields : List FieldDef) (vo : VariantObject) : List Variant :=
  fields.filterMap fun f => vo.lookup f.name

/-- The names of the fields of a struct and its bases. -/
def fieldNames : (scopes : Nat) → TypeName → List FieldName
  | 0, _ => []
  | scopes + 1, x =>
    match s.structs.get? x with
    | none => []
    | some st => (if st.base = [] then [] else fieldNames scopes (s.resolveType st.base))
      ++ st.fields.map FieldDef.name

/-- The fields of a struct and its bases have different names without NUL. -/
def NamesDiffer (scopes : Nat) (x : TypeName) : Prop :=
  (s.fieldNames scopes x).Nodup ∧ ∀ name ∈ s.fieldNames scopes x, cStr name = name

instance (scopes : Nat) (x : TypeName) : Decidable (s.NamesDiffer scopes x) :=
  inferInstanceAs (Decidable (_ ∧ _))

/-- How many fields of a struct and its bases there are values for. -/
def givenCount : (scopes : Nat) → TypeName → VariantObject → Nat
  | 0, _, _ => 0
  | scopes + 1, x, vo =>
    match s.structs.get? x with
    | none => 0
    | some st => (if st.base = [] then 0 else givenCount scopes (s.resolveType st.base) vo)
      + (givenValues st.fields vo).length

/-- The encoder takes the name for that of a struct, as the decoder takes all bases. -/
def takenForStruct (x : TypeName) : Bool :=
  (s.builtInTypes (fundamentalType x)).isNone && !isArray x && !isOptional x
    && (s.variants.get? x).isNone

variable (object : TypeName → VariantObject → Trip)

def baseTrip (st : StructDef) (vo : VariantObject) : Trip :=
  if st.base = [] then .back
  else if s.takenForStruct (s.resolveType st.base) = true then object (s.resolveType st.base) vo
  else .confused

end Trips

section Steps

variable (s : AbiSerializer)

/-- A struct, within `packScopes` scopes of the encoder. The decoder enters another scope for it,
and wants it to have fields. -/
def structTrip (value : Nat → TypeName → Variant → Trip)
    (object : Nat → TypeName → VariantObject → Trip) (packScopes : Nat) :
    (unpackScopes : Nat) → TypeName → StructDef → Variant → Trip
  | 0, _, _, _ => .refused
  | m + 1, x, st, v =>
    if s.NamesDiffer packScopes x then
      match v with
      | .object vo => ((s.baseTrip (object m) st vo).andThen
          (fieldsTrip (value m) st.fields (givenValues st.fields vo))).andThen
        (if s.givenCount packScopes x vo = 0 then .refused else .back)
      | .array va => (fieldsTrip (value m) st.fields va).andThen
        (if min st.fields.length va.length = 0 then .refused else .back)
      | _ => .back
    else .confused

/-- One scope; `value` is the function itself, one scope further in. -/
def valueStep (value : TypeName → Variant → Trip) (struct : TypeName → StructDef → Variant → Trip)
    (type : TypeName) (v : Variant) : Trip :=
  let rtype := s.resolveType type
  let ftype := fundamentalType rtype
  if (s.builtInTypes ftype).isSome = true then .back
  else if isArray rtype = true then
    match v with
    | .array vars => if vars.length < 2 ^ 32 then s.itemsTrip value ftype vars else .confused
    | _ => .back
  else if isOptional rtype = true then if v.isNull = true then .back else value ftype v
  else
    match s.variants.get? rtype with
    | some vd =>
      match v with
      | .array [.string type', v'] =>
        if (vd.types.idxOf? type').all (· < 2 ^ 32) = true then value type' v' else .confused
      | _ => .back
    | none =>
      match s.structs.get? rtype with
      | none => .back
      | some st => struct rtype st v

end Steps

mutual

/-- What becomes of a value that is packed within so many scopes, and unpacked within so many. -/
def valueTrip (s : AbiSerializer) : (packScopes unpackScopes : Nat) → TypeName → Variant → Trip
  | n + 1, m + 1, type, v => s.valueStep (valueTrip s n m)
    (s.structTrip (valueTrip s n) (objectTrip s n) (n + 1) m) type v
  | _, _, _, _ => .refused

/-- The fields of a struct and its bases. -/
def objectTrip (s : AbiSerializer) : (packScopes unpackScopes : Nat) → TypeName → VariantObject →
    Trip
  | n + 1, m + 1, x, vo =>
    match s.structs.get? x with
    | none => .back
    | some st => (s.baseTrip (objectTrip s n m) st vo).andThen
      (fieldsTrip (valueTrip s n m) st.fields (givenValues st.fields vo))
  | _, _, _, _ => .refused

end

/-! ## Loops -/

variable {s : AbiSerializer}

theorem variantToStream_resolveType (raw : FcRaw) (n : Nat) (allow : Bool) (t : TypeName)
    (v : Variant) :
    s.variantToStream raw n allow (s.resolveType t) v = s.variantToStream raw n allow t v := by
  cases n with
  | zero => rfl
  | succ n =>
    unfold variantToStream packStep
    rw [resolveType_resolveType]

theorem streamToVariant_resolveType (raw : FcRaw) (m : Nat) (t : TypeName) (stream : Bytes) :
    s.streamToVariant raw m (s.resolveType t) stream = s.streamToVariant raw m t stream := by
  cases m with
  | zero => rfl
  | succ m =>
    unfold streamToVariant unpackStep
    rw [resolveType_resolveType]

section Fields

variable {pack : Bool → TypeName → Variant → Result Bytes} {allow disallow : Bool}
  {fields : List FieldDef} {vo obj : VariantObject} {b : Bytes}
  {unpack : TypeName → Bytes → Result (Variant × Bytes)} {encountered : Bool}

theorem packFields_disallow (h : packFields pack allow vo true fields = .ok b) :
    b = [] ∧ ∀ f ∈ fields, isBinExtension f.type = true ∧ vo.lookup (cStr f.name) = none := by
  induction fields with
  | nil =>
    cases h
    exact ⟨rfl, fun _ hf => by cases hf⟩
  | cons f fields ih =>
    simp only [packFields, ↓reduceIte] at h
    split_ifs at h with hpresent hextension
    · cases h
    · obtain ⟨rfl, hrest⟩ := ih h
      exact ⟨rfl, forall_mem_cons.2 ⟨⟨hextension.1, not_isSome_iff_eq_none.1 hpresent⟩, hrest⟩⟩
    · cases h

theorem packFields_of_present {f : FieldDef} {v : Variant} (hnul : cStr f.name = f.name)
    (hf : vo.lookup f.name = some v) : packFields pack allow vo false (f :: fields) = (do
      let b ← pack (allow && fields.isEmpty) (removeBinExtension f.type) v
      let bs ← packFields pack allow vo false fields
      .ok (b ++ bs)) := by
  simp only [packFields, hnul, hf, isSome_some, ↓reduceIte, Bool.false_eq_true]

theorem packFields_of_missing (hallow : allow = true)
    (hextensions : ∀ f ∈ fields, isBinExtension f.type = true)
    (hmissing : ∀ f ∈ fields, vo.lookup (cStr f.name) = none) :
    packFields pack allow vo disallow fields = .ok [] := by
  induction fields generalizing disallow with
  | nil => rfl
  | cons f fields ih =>
    obtain ⟨hextension, hextensions⟩ := forall_mem_cons.1 hextensions
    obtain ⟨hf, hmissing⟩ := forall_mem_cons.1 hmissing
    rw [packFields, hf, if_neg (by simp), if_pos ⟨hextension, hallow⟩]
    exact ih hextensions hmissing

/-- An object packs like the array of the values it has for the fields. -/
theorem packPositions_of_packFields (hnul : ∀ f ∈ fields, cStr f.name = f.name)
    (h : packFields pack allow vo false fields = .ok b) :
    packPositions pack allow fields (givenValues fields vo) = .ok b := by
  induction fields generalizing b with
  | nil => exact h
  | cons f fields ih =>
    obtain ⟨hnulf, hnul⟩ := forall_mem_cons.1 hnul
    cases hf : vo.lookup f.name with
    | some v =>
      rw [packFields_of_present hnulf hf] at h
      obtain ⟨b₁, hb₁, b₂, hb₂, h⟩ := bind₂_eq_ok.1 h
      have hgiven : givenValues (f :: fields) vo = v :: givenValues fields vo := by
        simp [givenValues, hf]
      rw [hgiven, packPositions, hb₁, ok_bind, ih hnul hb₂]
      exact h
    | none =>
      -- an extension is missing, and so are all fields after it
      simp only [packFields, hnulf, hf, isSome_none, Bool.false_eq_true, ↓reduceIte] at h
      split_ifs at h with hextension
      · obtain ⟨rfl, hrest⟩ := packFields_disallow h
        have hnone : givenValues (f :: fields) vo = [] := by
          refine filterMap_eq_nil_iff.2 (forall_mem_cons.2 ⟨hf, fun g hg => ?_⟩)
          rw [← hnul g hg]
          exact (hrest g hg).2
        rw [hnone, packPositions, if_pos hextension]
      · cases h

theorem unpackFields_nil (hextensions : ∀ f ∈ fields, isBinExtension f.type = true) :
    s.unpackFields unpack encountered fields [] obj = .ok (obj, []) := by
  induction fields generalizing encountered with
  | nil => rfl
  | cons f fields ih =>
    obtain ⟨hextension, hextensions⟩ := forall_mem_cons.1 hextensions
    rw [unpackFields, if_pos hextension]
    exact ih hextensions

theorem extensions_of_unpackFields_nil {r : VariantObject × Bytes}
    (h : s.unpackFields unpack encountered fields [] obj = .ok r) :
    ∀ f ∈ fields, isBinExtension f.type = true := by
  induction fields generalizing encountered with
  | nil => exact nofun
  | cons f fields ih =>
    rw [unpackFields, if_pos rfl] at h
    split_ifs at h with hextension
    · exact forall_mem_cons.2 ⟨hextension, ih h⟩
    · cases h
    · cases h

theorem set_of_lookup_eq_none {key : FieldName} (h : obj.lookup key = none) (v : Variant) :
    obj.set key v = obj ++ [(key, v)] := by
  unfold VariantObject.set
  rw [h]
  rfl

variable {value : TypeName → Variant → Trip} {f : FieldDef} {v : Variant}

theorem fieldTrip_eq_back :
    fieldTrip value f v = .back ↔ value (removeBinExtension f.type) v = .back := by
  unfold fieldTrip
  cases value _ v with
  | refused => split_ifs <;> simp
  | back | confused => simp

theorem fieldTrip_eq_refused (h : fieldTrip value f v = .refused) :
    value (removeBinExtension f.type) v = .refused ∧ isBinExtension f.type ≠ true := by
  unfold fieldTrip at h
  cases hv : value _ v with
  | refused =>
    rw [hv] at h
    exact ⟨rfl, fun hextension => by simp [hextension] at h⟩
  | back | confused =>
    rw [hv] at h
    cases h

end Fields

/-! ## Fields that are recovered -/

section Outcome

variable (names : List FieldName) (pack : VariantObject → Result Bytes)
  (unpack : Bytes → VariantObject → Result (VariantObject × Bytes)) (allow : Bool) (b : Bytes)

/-- The fields `fs` are read from the bytes, and objects that have them pack to the bytes. Where
extensions may be missing, nothing follows the bytes. -/
structure Recovered (fs : VariantObject) : Prop where
  others : ∀ name ∉ names, fs.lookup name = none
  nonempty : fs ≠ [] → b ≠ []
  packed : ∀ vo : VariantObject, (∀ name ∈ names, vo.lookup name = fs.lookup name) →
    pack vo = .ok b
  unpacked : ∀ rest (obj : VariantObject), (allow = true → rest = []) →
    (∀ name ∈ names, obj.lookup name = none) → unpack (b ++ rest) obj = .ok (obj ++ fs, rest)

/-- What the trip says of the fields is right; `count` is the number of those that are read. -/
structure Outcome (trip : Trip) (count : Nat) : Prop where
  back : trip = .back → ∃ fs, fs.length = count ∧ Recovered names pack unpack allow b fs
  refused : trip = .refused → ∀ rest (obj : VariantObject) r, (allow = true → rest = []) →
    (∀ name ∈ names, obj.lookup name = none) → unpack (b ++ rest) obj ≠ .ok r

variable {names pack unpack allow b} {names' : List FieldName}
  {pack' : VariantObject → Result Bytes}
  {unpack' : Bytes → VariantObject → Result (VariantObject × Bytes)} {b' : Bytes}

/-- Fields after fields of other names. -/
theorem Recovered.append {fs fs' : VariantObject} (h : Recovered names pack unpack false b fs)
    (h' : Recovered names' pack' unpack' allow b' fs') (hdisjoint : names.Disjoint names') :
    Recovered (names ++ names') (fun vo => do
        let bytes ← pack vo
        let bytes' ← pack' vo
        .ok (bytes ++ bytes'))
      (fun stream obj => unpack stream obj >>= fun r => unpack' r.2 r.1) allow (b ++ b')
      (fs ++ fs') := by
  have hfs : ∀ name ∈ names', fs.lookup name = none := fun name hname =>
    h.others name fun hmem => hdisjoint hmem hname
  have hfs' : ∀ name ∈ names, fs'.lookup name = none := fun name hname =>
    h'.others name fun hmem => hdisjoint hname hmem
  refine ⟨fun name hname => ?_, fun hne => ?_, fun vo hvo => ?_, fun rest obj hend hobj => ?_⟩
  · rw [mem_append, not_or] at hname
    rw [lookup_append, h.others name hname.1, h'.others name hname.2]
    rfl
  · by_cases hnil : fs = []
    · rw [hnil, nil_append] at hne
      simp [h'.nonempty hne]
    · simp [h.nonempty hnil]
  · rw [h.packed vo fun name hname => ?_, ok_bind, h'.packed vo fun name hname => ?_, ok_bind]
    · rw [hvo name (mem_append_right _ hname), lookup_append, hfs name hname, none_or]
    · rw [hvo name (mem_append_left _ hname), lookup_append, hfs' name hname, or_none]
  · rw [append_assoc, h.unpacked _ obj nofun fun name hname => hobj name (mem_append_left _ hname),
      ok_bind, h'.unpacked rest _ hend fun name hname => ?_, append_assoc]
    rw [lookup_append, hobj name (mem_append_right _ hname), hfs name hname]
    rfl

theorem Outcome.append {trip trip' : Trip} {count count' : Nat}
    (h : Outcome names pack unpack false b trip count)
    (h' : Outcome names' pack' unpack' allow b' trip' count') (hdisjoint : names.Disjoint names') :
    Outcome (names ++ names') (fun vo => do
        let bytes ← pack vo
        let bytes' ← pack' vo
        .ok (bytes ++ bytes'))
      (fun stream obj => unpack stream obj >>= fun r => unpack' r.2 r.1) allow (b ++ b')
      (trip.andThen trip') (count + count') := by
  constructor
  · intro htrip
    obtain ⟨htrip, htrip'⟩ := Trip.andThen_eq_back.1 htrip
    obtain ⟨fs, rfl, hfs⟩ := h.back htrip
    obtain ⟨fs', rfl, hfs'⟩ := h'.back htrip'
    exact ⟨fs ++ fs', length_append, hfs.append hfs' hdisjoint⟩
  · intro htrip rest obj r hend hobj hrun
    obtain ⟨r₁, hr₁, hrun⟩ := bind_eq_ok.1 hrun
    rw [append_assoc] at hr₁
    have hobj₁ : ∀ name ∈ names, obj.lookup name = none := fun name hname =>
      hobj name (mem_append_left _ hname)
    rcases Trip.andThen_eq_refused.1 htrip with htrip | ⟨htrip, htrip'⟩
    · exact h.refused htrip _ obj r₁ nofun hobj₁ hr₁
    · obtain ⟨fs, -, hfs⟩ := h.back htrip
      rw [hfs.unpacked _ obj nofun hobj₁] at hr₁
      cases hr₁
      refine h'.refused htrip' rest _ r hend (fun name hname => ?_) hrun
      rw [lookup_append, hobj name (mem_append_right _ hname),
        hfs.others name fun hmem => hdisjoint hmem hname]
      rfl

end Outcome

/-! ## Values -/

section Values

variable {raw : FcRaw} {n m : Nat} {allow : Bool} {t x : TypeName} {v : Variant} {b : Bytes}
  {vo : VariantObject} {st : StructDef}

/-- `v` packs to the bytes and is read from them. -/
structure Recovers (s : AbiSerializer) (raw : FcRaw) (n m : Nat) (allow : Bool) (t : TypeName)
    (b : Bytes) (v : Variant) : Prop where
  packed : s.variantToStream raw n allow t v = .ok b
  unpacked : ∀ rest, (allow = true → rest = []) →
    s.streamToVariant raw m t (b ++ rest) = .ok (v, rest)

/-- What the trip says of a packed value is right. -/
structure ValueOutcome (s : AbiSerializer) (raw : FcRaw) (n m : Nat) (allow : Bool) (t : TypeName)
    (v : Variant) (b : Bytes) (trip : Trip) : Prop where
  back : trip = .back → b ≠ [] ∧ ∃ v', s.Recovers raw n m allow t b v'
    ∧ v'.isNull = (isOptional (s.resolveType t) && v.isNull)
  refused : trip = .refused → ∀ rest r, (allow = true → rest = []) →
    s.streamToVariant raw m t (b ++ rest) ≠ .ok r

theorem ValueOutcome.confused : s.ValueOutcome raw n m allow t v b .confused :=
  ⟨fun htrip => (by cases htrip), fun htrip => (by cases htrip)⟩

def ValuesOutcome (s : AbiSerializer) (raw : FcRaw) (n : Nat) : Prop :=
  ∀ m allow t v b, s.variantToStream raw n allow t v = .ok b →
    s.ValueOutcome raw n m allow t v b (s.valueTrip n m t v)

def ObjectsOutcome (s : AbiSerializer) (raw : FcRaw) (n : Nat) : Prop :=
  ∀ m allow x vo b, s.takenForStruct x = true → s.resolveType x = x → s.NamesDiffer n x →
    s.variantToStream raw n allow x (.object vo) = .ok b →
    Outcome (s.fieldNames n x) (fun vo => s.variantToStream raw n allow x (.object vo))
      (s.streamToObject raw m x) allow b (s.objectTrip n m x vo) (s.givenCount n x vo)

theorem lookup_cons_of_ne {fs : VariantObject} {name key : FieldName} (h : name ≠ key) :
    ((key, v) :: fs : VariantObject).lookup name = fs.lookup name := by
  rw [lookup_cons, beq_false_of_ne h]

section Fields

variable {fields : List FieldDef} {f : FieldDef} {fs : VariantObject} {b₁ b₂ : Bytes}
  {encountered : Bool}

/-- The decoder reads a field. -/
theorem unpackFields_of_value {v' : Variant} {obj : VariantObject} {stream : Bytes}
    (hne : b₁ ≠ []) (hobj : obj.lookup f.name = none)
    (hv : s.streamToVariant raw m (removeBinExtension f.type) (b₁ ++ stream) = .ok (v', stream)) :
    s.unpackFields (s.streamToVariant raw m) encountered (f :: fields) (b₁ ++ stream) obj
      = s.unpackFields (s.streamToVariant raw m) (encountered || isBinExtension f.type) fields
        stream (obj ++ [(f.name, v')]) := by
  rw [unpackFields, if_neg (by simp [hne]), streamToVariant_resolveType, hv, ok_bind]
  dsimp only
  rw [set_of_lookup_eq_none hobj]

/-- Nothing follows the last field where extensions may be missing. -/
theorem eq_nil_of_last {vars : List Variant} {rest : Bytes}
    (hb₂ : packPositions (s.variantToStream raw n) allow fields vars = .ok b₂)
    (hend : allow = true → rest = []) (hlast : (allow && fields.isEmpty) = true) :
    b₂ ++ rest = [] := by
  rw [Bool.and_eq_true, List.isEmpty_iff] at hlast
  obtain ⟨hallow, rfl⟩ := hlast
  cases hb₂
  rw [hend hallow]
  rfl

theorem Recovered.cons {vars : List Variant}
    (h : Recovered (fields.map FieldDef.name)
      (fun vo => packFields (s.variantToStream raw n) allow vo false fields)
      (s.unpackFields (s.streamToVariant raw m) (encountered || isBinExtension f.type) fields) allow
      b₂ fs)
    (hnul : cStr f.name = f.name) (hnot : f.name ∉ fields.map FieldDef.name)
    (hb₂ : packPositions (s.variantToStream raw n) allow fields vars = .ok b₂) (hne : b₁ ≠ [])
    (hv : s.Recovers raw n m (allow && fields.isEmpty) (removeBinExtension f.type) b₁ v) :
    Recovered ((f :: fields).map FieldDef.name)
      (fun vo => packFields (s.variantToStream raw n) allow vo false (f :: fields))
      (s.unpackFields (s.streamToVariant raw m) encountered (f :: fields)) allow (b₁ ++ b₂)
      ((f.name, v) :: fs) := by
  have hrest : ∀ name ∈ fields.map FieldDef.name, name ≠ f.name := fun name hname heq =>
    hnot (heq ▸ hname)
  refine ⟨fun name hname => ?_, fun _ => by simp [hne], fun vo hvo => ?_,
    fun rest obj hend hobj => ?_⟩
  · rw [map_cons, mem_cons, not_or] at hname
    rw [lookup_cons_of_ne hname.1]
    exact h.others name hname.2
  · rw [map_cons, forall_mem_cons] at hvo
    have hf : vo.lookup f.name = some v := by simp [hvo.1]
    rw [packFields_of_present hnul hf, hv.packed, ok_bind, h.packed vo fun name hname => ?_,
      ok_bind]
    rw [hvo.2 name hname, lookup_cons_of_ne (hrest name hname)]
  · rw [map_cons, forall_mem_cons] at hobj
    rw [append_assoc, unpackFields_of_value hne hobj.1 (hv.unpacked _ (eq_nil_of_last hb₂ hend)),
      h.unpacked rest _ hend fun name hname => ?_, append_assoc]
    · rfl
    · rw [lookup_append, hobj.2 name hname, lookup_cons_of_ne (hrest name hname)]
      rfl

/-- By induction on the fields: what the trip says of them is right. -/
theorem fields_outcome (h : s.ValuesOutcome raw n) {vars : List Variant}
    (hnul : ∀ f ∈ fields, cStr f.name = f.name) (hnodup : (fields.map FieldDef.name).Nodup)
    (hrun : packPositions (s.variantToStream raw n) allow fields vars = .ok b) :
    Outcome (fields.map FieldDef.name)
      (fun vo => packFields (s.variantToStream raw n) allow vo false fields)
      (s.unpackFields (s.streamToVariant raw m) encountered fields) allow b
      (fieldsTrip (s.valueTrip n m) fields vars) (min fields.length vars.length) := by
  induction fields generalizing vars b encountered with
  | nil =>
    cases hrun
    refine ⟨fun _ => ⟨[], by simp, fun _ _ => rfl, absurd rfl, fun _ _ => rfl, ?_⟩, fun htrip => ?_⟩
    · intro rest obj _ _
      rw [unpackFields, append_nil, nil_append]
    · cases htrip
  | cons f fields ih =>
    obtain ⟨hnulf, hnulr⟩ := forall_mem_cons.1 hnul
    obtain ⟨hnot, hnodup⟩ := nodup_cons.1 hnodup
    cases vars with
    | nil =>
      rw [packPositions] at hrun
      split_ifs at hrun with hextension
      · cases hrun
        unfold fieldsTrip
        split_ifs with hextensions
        · refine ⟨fun _ => ⟨[], by simp, fun _ _ => rfl, absurd rfl, fun vo hvo => ?_, ?_⟩, nofun⟩
          · refine packFields_of_missing hextension.2 hextensions fun g hg => ?_
            rw [hnul g hg, hvo _ (mem_map_of_mem hg)]
            rfl
          · intro rest obj hend _
            rw [hend hextension.2, append_nil, append_nil]
            exact unpackFields_nil hextensions
        · refine ⟨nofun, fun _ rest obj r hend _ hread => hextensions ?_⟩
          rw [hend hextension.2] at hread
          exact extensions_of_unpackFields_nil hread
      · cases hrun
    | cons v vars =>
      obtain ⟨b₁, hb₁, b₂, hb₂, hrun⟩ := bind₂_eq_ok.1 hrun
      cases hrun
      have hvalue := h m _ _ v b₁ hb₁
      have hfields := @ih b₂ (encountered || isBinExtension f.type) vars hnulr hnodup hb₂
      constructor
      · intro htrip
        obtain ⟨htrip, htrips⟩ := Trip.andThen_eq_back.1 htrip
        obtain ⟨hne, v', hv', -⟩ := hvalue.back (fieldTrip_eq_back.1 htrip)
        obtain ⟨fs, hlength, hfs⟩ := hfields.back htrips
        refine ⟨(f.name, v') :: fs, ?_, hfs.cons hnulf hnot hb₂ hne hv'⟩
        rw [length_cons, hlength, length_cons, length_cons]
        omega
      · intro htrip rest obj r hend hobj hread
        rw [append_assoc] at hread
        rw [map_cons, forall_mem_cons] at hobj
        rcases Trip.andThen_eq_refused.1 htrip with htrip | ⟨htrip, htrips⟩
        · obtain ⟨htrip, hextension⟩ := fieldTrip_eq_refused htrip
          rw [unpackFields] at hread
          split_ifs at hread
          · cases hread
          · cases hread
          · obtain ⟨r', hr', -⟩ := bind_eq_ok.1 hread
            rw [streamToVariant_resolveType] at hr'
            exact hvalue.refused htrip _ r' (eq_nil_of_last hb₂ hend) hr'
        · obtain ⟨hne, v', hv', -⟩ := hvalue.back (fieldTrip_eq_back.1 htrip)
          rw [unpackFields_of_value hne hobj.1
            (hv'.unpacked _ (eq_nil_of_last hb₂ hend))] at hread
          refine hfields.refused htrips rest _ r hend (fun name hname => ?_) hread
          have hne : name ≠ f.name := fun heq => hnot (heq ▸ hname)
          rw [lookup_append, hobj.2 name hname, lookup_cons_of_ne hne]
          rfl

end Fields

/-! ## Structs -/

theorem takenForStruct_eq_true : s.takenForStruct x = true ↔
    s.builtInTypes (fundamentalType x) = none ∧ isArray x = false ∧ isOptional x = false
      ∧ s.variants.get? x = none := by
  simp [takenForStruct, and_assoc]

section

variable (hx : s.takenForStruct x = true) (hres : s.resolveType x = x)
include hx hres

theorem variantToStream_struct (hst : s.structs.get? x = some st) (v : Variant) :
    s.variantToStream raw (n + 1) allow x v
      = s.packStruct (s.variantToStream raw n) allow st v := by
  obtain ⟨hb, ha, ho, hvd⟩ := takenForStruct_eq_true.1 hx
  unfold variantToStream packStep
  simp only [hres, hb, ha, ho, hvd, hst, Bool.false_eq_true, ↓reduceIte]

theorem exists_struct_of_packed (h : s.variantToStream raw (n + 1) allow x v = .ok b) :
    ∃ st, s.structs.get? x = some st := by
  obtain ⟨hb, ha, ho, hvd⟩ := takenForStruct_eq_true.1 hx
  refine ne_none_iff_exists'.1 fun hst => ?_
  unfold variantToStream packStep at h
  simp only [hres, hb, ha, ho, hvd, hst, Bool.false_eq_true, ↓reduceIte] at h
  cases h

end

theorem fieldNames_struct (hst : s.structs.get? x = some st) : s.fieldNames (n + 1) x
    = (if st.base = [] then [] else s.fieldNames n (s.resolveType st.base))
      ++ st.fields.map FieldDef.name := by
  rw [fieldNames, hst]

theorem streamToObject_struct (hst : s.structs.get? x = some st) :
    s.streamToObject raw (m + 1) x = fun stream obj =>
      s.unpackBase (s.streamToObject raw m) st stream obj >>= fun r =>
        s.unpackFields (s.streamToVariant raw m) false st.fields r.2 r.1 := by
  funext stream obj
  rw [streamToObject, unpackObjectStep, hst]

theorem base_outcome (h : s.ObjectsOutcome raw n)
    (hnames : st.base ≠ [] → s.NamesDiffer n (s.resolveType st.base))
    (hrun : s.packBase (s.variantToStream raw n) st vo = .ok b) :
    Outcome (if st.base = [] then [] else s.fieldNames n (s.resolveType st.base))
      (s.packBase (s.variantToStream raw n) st) (s.unpackBase (s.streamToObject raw m) st) false b
      (s.baseTrip (s.objectTrip n m) st vo)
      (if st.base = [] then 0 else s.givenCount n (s.resolveType st.base) vo) := by
  unfold packBase at hrun ⊢
  unfold unpackBase baseTrip
  by_cases hbase : st.base = []
  · simp only [if_pos hbase] at hrun ⊢
    cases hrun
    refine ⟨fun _ => ⟨[], rfl, fun _ _ => rfl, absurd rfl, fun _ _ => rfl, ?_⟩, nofun⟩
    intro rest obj _ _
    rw [append_nil]
    rfl
  · simp only [if_neg hbase] at hrun ⊢
    split_ifs with htaken
    · exact h m false _ vo b htaken (resolveType_resolveType _) (hnames hbase) hrun
    · exact ⟨nofun, nofun⟩

variable {vars : List Variant}

/-- The fields of a struct, after those of its base. -/
theorem struct_outcome (hvalues : s.ValuesOutcome raw n) (hobjects : s.ObjectsOutcome raw n)
    (hx : s.takenForStruct x = true) (hres : s.resolveType x = x)
    (hnames : s.NamesDiffer (n + 1) x) (hst : s.structs.get? x = some st) {b₁ b₂ : Bytes}
    (hbase : s.packBase (s.variantToStream raw n) st vo = .ok b₁)
    (hown : packPositions (s.variantToStream raw n) allow st.fields vars = .ok b₂) :
    Outcome (s.fieldNames (n + 1) x)
      (fun vo => s.variantToStream raw (n + 1) allow x (.object vo))
      (s.streamToObject raw (m + 1) x) allow (b₁ ++ b₂)
      ((s.baseTrip (s.objectTrip n m) st vo).andThen
        (fieldsTrip (s.valueTrip n m) st.fields vars))
      ((if st.base = [] then 0 else s.givenCount n (s.resolveType st.base) vo)
        + min st.fields.length vars.length) := by
  unfold NamesDiffer at hnames
  rw [fieldNames_struct hst] at hnames ⊢
  obtain ⟨hnodup, hnul⟩ := hnames
  obtain ⟨hnodup₁, hnodup₂, hdisjoint⟩ := nodup_append'.1 hnodup
  simp only [variantToStream_struct hx hres hst, packStruct]
  rw [streamToObject_struct hst]
  refine (base_outcome hobjects (fun hne => ?_) hbase).append
    (fields_outcome hvalues (fun f hf => ?_) hnodup₂ hown) hdisjoint
  · rw [if_neg hne] at hnodup₁ hnul
    exact ⟨hnodup₁, fun name hname => hnul name (mem_append_left _ hname)⟩
  · exact hnul _ (mem_append_right _ (mem_map_of_mem hf))

theorem objects_outcome_succ (hvalues : s.ValuesOutcome raw n) (hobjects : s.ObjectsOutcome raw n) :
    s.ObjectsOutcome raw (n + 1) := by
  intro m allow x vo b hx hres hnames hrun
  obtain ⟨st, hst⟩ := exists_struct_of_packed hx hres hrun
  cases m with
  | zero => exact ⟨fun htrip => (by cases htrip), fun _ _ _ _ _ _ hread => (by cases hread)⟩
  | succ m =>
    rw [variantToStream_struct hx hres hst] at hrun
    obtain ⟨base, hbase, own, hown, hrun⟩ := bind₂_eq_ok.1 hrun
    cases hrun
    have hnul : ∀ f ∈ st.fields, cStr f.name = f.name := by
      intro f hf
      refine hnames.2 _ ?_
      rw [fieldNames_struct hst]
      exact mem_append_right _ (mem_map_of_mem hf)
    have houtcome := struct_outcome (m := m) hvalues hobjects hx hres hnames hst hbase
      (packPositions_of_packFields hnul hown)
    have hcount : min st.fields.length (givenValues st.fields vo).length
        = (givenValues st.fields vo).length := min_eq_right (length_filterMap_le _ _)
    rw [objectTrip, givenCount, hst]
    rw [hcount] at houtcome
    exact houtcome

/-! ## One type -/

theorem items_outcome (h : s.ValuesOutcome raw n) {items : List Bytes}
    (hrun : vars.mapM (s.variantToStream raw n false t) = .ok items) :
    (s.itemsTrip (s.valueTrip n m) t vars = .back → ∃ vars', vars'.length = vars.length
      ∧ vars'.mapM (s.variantToStream raw n false t) = .ok items
      ∧ ∀ rest, unpackItems (s.streamToVariant raw m) t vars.length (items.flatten ++ rest)
        = .ok (vars', rest)) ∧
    (s.itemsTrip (s.valueTrip n m) t vars = .refused → ∀ rest r,
      unpackItems (s.streamToVariant raw m) t vars.length (items.flatten ++ rest) ≠ .ok r) := by
  induction vars generalizing items with
  | nil =>
    cases hrun
    exact ⟨fun _ => ⟨[], rfl, rfl, fun _ => rfl⟩, nofun⟩
  | cons v vars ih =>
    rw [mapM_cons] at hrun
    obtain ⟨b, hb, bs, hbs, hrun⟩ := bind₂_eq_ok.1 hrun
    cases hrun
    have hvalue := h m false t v b hb
    obtain ⟨hback, hrefused⟩ := ih hbs
    rw [itemsTrip, Trip.andThen_eq_back, Trip.andThen_eq_refused, flatten_cons, length_cons]
    constructor
    · rintro ⟨htrip, htrips⟩
      obtain ⟨-, v', hv', hnull⟩ := hvalue.back htrip
      split_ifs at htrips with hskip
      obtain ⟨vars', hlength, hpacked, hunpacked⟩ := hback htrips
      refine ⟨v' :: vars', by rw [length_cons, hlength], ?_, fun rest => ?_⟩
      · rw [mapM_cons, hv'.packed, ok_bind, hpacked]
        rfl
      · rw [unpackItems, append_assoc, hv'.unpacked _ nofun, ok_bind]
        dsimp only
        rw [eosAssert_of (hnull.trans (eq_false_of_ne_true hskip)), ok_bind, hunpacked rest,
          ok_bind]
    · intro htrip rest r hread
      obtain ⟨⟨v', stream⟩, hr, hread⟩ := bind_eq_ok.1 hread
      rw [append_assoc] at hr
      rcases htrip with htrip | ⟨htrip, htrips⟩
      · exact hvalue.refused htrip _ _ nofun hr
      · obtain ⟨-, v', hv', hnull⟩ := hvalue.back htrip
        rw [hv'.unpacked _ nofun] at hr
        cases hr
        obtain ⟨_, hassert, hread⟩ := bind_eq_ok.1 hread
        split_ifs at htrips with hskip
        · -- the decoder does not take null
          rw [hskip] at hnull
          rw [eosAssert_eq_ok.1 hassert] at hnull
          cases hnull
        · obtain ⟨r', hr', -⟩ := bind_eq_ok.1 hread
          exact hrefused htrips rest r' hr'

variable (hrun : s.variantToStream raw (n + 1) allow t v = .ok b)

include hrun in
theorem ValueOutcome.builtIn {btype : BuiltIn} (hinv : btype.Inverse)
    (hb : s.builtInTypes (fundamentalType (s.resolveType t)) = some btype) :
    s.ValueOutcome raw (n + 1) (m + 1) allow t v b .back := by
  simp only [variantToStream, packStep, hb] at hrun
  obtain ⟨v', hpacked, hnull, hunpacked⟩ := hinv.recovers _ _ v b hrun
  refine ⟨fun _ => ⟨hinv.ne_nil _ _ v b hrun, v', ⟨?_, fun rest _ => ?_⟩, hnull⟩, nofun⟩
  · simp only [variantToStream, packStep, hb, hpacked]
  · simp only [streamToVariant, unpackStep, hb, hunpacked rest]
    rfl

variable (h : s.ValuesOutcome raw n)
  (hb : s.builtInTypes (fundamentalType (s.resolveType t)) = none)
include hrun h hb

theorem ValueOutcome.array (hraw : raw.Inverse) (ha : isArray (s.resolveType t) = true)
    (hv : v = .array vars) (hfits : vars.length < 2 ^ 32) :
    s.ValueOutcome raw (n + 1) (m + 1) allow t v b
      (s.itemsTrip (s.valueTrip n m) (fundamentalType (s.resolveType t)) vars) := by
  subst hv
  have hsize : vars.length % 2 ^ 32 = vars.length := mod_eq_of_lt hfits
  simp only [variantToStream, packStep, hb, ha, ↓reduceIte, Variant.getArray, ok_bind, hsize]
    at hrun
  obtain ⟨items, hitems, hrun⟩ := bind_eq_ok.1 hrun
  cases hrun
  obtain ⟨hback, hrefused⟩ := items_outcome (m := m) h hitems
  have hread : ∀ rest, raw.unpackUnsignedInt (raw.packUnsignedInt vars.length ++
      (items.flatten ++ rest)) = .ok (vars.length, items.flatten ++ rest) :=
    fun rest => hraw.recovers _ _ hfits
  constructor
  · intro htrip
    obtain ⟨vars', hlength, hpacked, hunpacked⟩ := hback htrip
    refine ⟨by simp [hraw.ne_nil], .array vars', ⟨?_, fun rest _ => ?_⟩, ?_⟩
    · simp only [variantToStream, packStep, hb, ha, ↓reduceIte, Variant.getArray, ok_bind, hpacked,
        hlength, hsize]
    · simp only [streamToVariant, unpackStep, hb, ha, ↓reduceIte, append_assoc, hread, rethrowAs,
        ok_bind, hunpacked, eosAssert_of hlength]
    · exact (Bool.and_false _).symm
  · intro htrip rest r _ hrun
    simp only [streamToVariant, unpackStep, hb, ha, ↓reduceIte, append_assoc, hread, rethrowAs,
      ok_bind] at hrun
    obtain ⟨r', hr', -⟩ := bind_eq_ok.1 hrun
    exact hrefused htrip rest r' hr'

variable (ha : isArray (s.resolveType t) = false)
include ha

theorem ValueOutcome.optional (ho : isOptional (s.resolveType t) = true) :
    s.ValueOutcome raw (n + 1) (m + 1) allow t v b
      (if v.isNull = true then .back
        else s.valueTrip n m (fundamentalType (s.resolveType t)) v) := by
  simp only [variantToStream, packStep, hb, ha, ho, ↓reduceIte, Bool.false_eq_true] at hrun
  split_ifs at hrun ⊢ with hnull
  · cases hrun
    refine ⟨fun _ => ⟨cons_ne_nil _ _, .null, ⟨?_, fun rest _ => ?_⟩, ?_⟩, nofun⟩
    · simp only [variantToStream, packStep, hb, ha, ho, ↓reduceIte, Bool.false_eq_true,
        Variant.isNull]
    · simp [streamToVariant, unpackStep, hb, ha, ho]
    · rw [ho, hnull]
      rfl
  · obtain ⟨b₁, hb₁, hrun⟩ := bind_eq_ok.1 hrun
    cases hrun
    have hvalue := h m allow _ v b₁ hb₁
    have hread : ∀ rest, s.streamToVariant raw (m + 1) t (1 :: b₁ ++ rest)
        = s.streamToVariant raw m (fundamentalType (s.resolveType t)) (b₁ ++ rest) := by
      intro rest
      simp [streamToVariant, unpackStep, hb, ha, ho]
    constructor
    · intro htrip
      obtain ⟨-, v', hv', hnull'⟩ := hvalue.back htrip
      have hnull' : v'.isNull = false := by rw [hnull', eq_false_of_ne_true hnull, Bool.and_false]
      refine ⟨cons_ne_nil _ _, v', ⟨?_, fun rest hend => ?_⟩, ?_⟩
      · simp only [variantToStream, packStep, hb, ha, ho, ↓reduceIte, Bool.false_eq_true, hnull',
          hv'.packed, ok_bind]
      · rw [hread, hv'.unpacked rest hend]
      · rw [hnull', eq_false_of_ne_true hnull, Bool.and_false]
    · intro htrip rest r hend hrun
      rw [hread] at hrun
      exact hvalue.refused htrip rest r hend hrun

variable (ho : isOptional (s.resolveType t) = false)
include ho

theorem ValueOutcome.variant (hraw : raw.Inverse) {vd : VariantDef} {type : TypeName} {v' : Variant}
    (hvd : s.variants.get? (s.resolveType t) = some vd) (hv : v = .array [.string type, v'])
    (htag : (vd.types.idxOf? type).all (· < 2 ^ 32) = true) :
    s.ValueOutcome raw (n + 1) (m + 1) allow t v b (s.valueTrip n m type v') := by
  subst hv
  simp only [variantToStream, packStep, hb, ha, ho, hvd, packVariant, ↓reduceIte,
    Bool.false_eq_true] at hrun
  cases hi : vd.types.idxOf? type with
  | none =>
    rw [hi] at hrun
    cases hrun
  | some i =>
    rw [hi] at hrun htag
    obtain ⟨b₁, hb₁, hrun⟩ := bind_eq_ok.1 hrun
    cases hrun
    have hlt : i < 2 ^ 32 := of_decide_eq_true htag
    have hmod : i % 2 ^ 32 = i := mod_eq_of_lt hlt
    rw [hmod]
    have hvalue := h m allow type v' b₁ hb₁
    obtain ⟨hi', hget, -⟩ := idxOf?_eq_some_iff.1 hi
    have htype : vd.types[i]? = some type := by rw [getElem?_eq_getElem hi', hget]
    have hread : ∀ rest, raw.unpackUnsignedInt (raw.packUnsignedInt i ++ (b₁ ++ rest))
        = .ok (i, b₁ ++ rest) := fun rest => hraw.recovers _ _ hlt
    constructor
    · intro htrip
      obtain ⟨-, value, hvalue', -⟩ := hvalue.back htrip
      refine ⟨by simp [hraw.ne_nil], .array [.string type, value], ⟨?_, fun rest hend => ?_⟩, ?_⟩
      · simp only [variantToStream, packStep, hb, ha, ho, hvd, packVariant, hi, ↓reduceIte,
          Bool.false_eq_true, hvalue'.packed, ok_bind, hmod]
      · simp only [streamToVariant, unpackStep, hb, ha, ho, hvd, ↓reduceIte, Bool.false_eq_true,
          append_assoc, hread, rethrowAs, ok_bind, htype, hvalue'.unpacked rest hend]
      · exact (Bool.and_false _).symm
    · intro htrip rest r hend hrun
      simp only [streamToVariant, unpackStep, hb, ha, ho, hvd, ↓reduceIte, Bool.false_eq_true,
        append_assoc, hread, rethrowAs, ok_bind, htype] at hrun
      obtain ⟨r', hr', -⟩ := bind_eq_ok.1 hrun
      exact hvalue.refused htrip rest r' hend hr'

omit hrun h in
/-- A struct comes back if its fields do, and if there are any. -/
theorem ValueOutcome.of_object (hvd : s.variants.get? (s.resolveType t) = none)
    {names : List FieldName} {trip : Trip} {count : Nat} (hv : v.isNull = false)
    (hobject : Outcome names
      (fun vo => s.variantToStream raw (n + 1) allow (s.resolveType t) (.object vo))
      (s.streamToObject raw (m + 1) (s.resolveType t)) allow b trip count) :
    s.ValueOutcome raw (n + 1) (m + 2) allow t v b
      (trip.andThen (if count = 0 then .refused else .back)) := by
  have hread : ∀ stream, s.streamToVariant raw (m + 2) t stream = (do
      let r ← s.streamToObject raw (m + 1) (s.resolveType t) stream []
      eosAssert (0 < r.1.length) .unpackException "Unable to unpack '${p}' from stream"
      .ok (.object r.1, r.2)) := by
    intro stream
    rw [streamToVariant]
    simp only [unpackStep, hb, ha, ho, hvd, ↓reduceIte, Bool.false_eq_true]
  constructor
  · intro htrip
    obtain ⟨htrip, hcount⟩ := Trip.andThen_eq_back.1 htrip
    obtain ⟨fs, hlength, hfs⟩ := hobject.back htrip
    split_ifs at hcount with hzero
    have hpos : 0 < fs.length := by omega
    refine ⟨hfs.nonempty (length_pos_iff_ne_nil.1 hpos), .object fs, ⟨?_, fun rest hend => ?_⟩, ?_⟩
    · rw [← variantToStream_resolveType]
      exact hfs.packed fs fun _ _ => rfl
    · rw [hread, hfs.unpacked rest [] hend fun _ _ => rfl, ok_bind, nil_append]
      dsimp only
      rw [eosAssert_of hpos, ok_bind]
    · rw [hv, Bool.and_false]
      rfl
  · intro htrip rest r hend hrun
    rw [hread] at hrun
    obtain ⟨r', hr', _, hassert, -⟩ := bind₂_eq_ok.1 hrun
    rcases Trip.andThen_eq_refused.1 htrip with htrip | ⟨htrip, hcount⟩
    · exact hobject.refused htrip rest [] r' hend (fun _ _ => rfl) hr'
    · obtain ⟨fs, hlength, hfs⟩ := hobject.back htrip
      rw [hfs.unpacked rest [] hend fun _ _ => rfl] at hr'
      cases hr'
      split_ifs at hcount with hzero
      have hpos : 0 < ([] ++ fs).length := eosAssert_eq_ok.1 hassert
      rw [nil_append] at hpos
      omega

theorem ValueOutcome.struct (hobjects : s.ObjectsOutcome raw n)
    (hvd : s.variants.get? (s.resolveType t) = none)
    (hst : s.structs.get? (s.resolveType t) = some st) :
    s.ValueOutcome raw (n + 1) (m + 1) allow t v b
      (s.structTrip (s.valueTrip n) (s.objectTrip n) (n + 1) m (s.resolveType t) st v) := by
  cases m with
  | zero =>
    refine ⟨fun htrip => (by cases htrip), fun _ rest r _ hrun => ?_⟩
    simp only [streamToVariant, unpackStep, hb, ha, ho, hvd, ↓reduceIte, Bool.false_eq_true,
      streamToObject] at hrun
    cases hrun
  | succ m =>
    simp only [structTrip]
    split_ifs with hnames
    · have hx := takenForStruct_eq_true.2 ⟨hb, ha, ho, hvd⟩
      have hres := s.resolveType_resolveType t
      rw [← variantToStream_resolveType, variantToStream_struct hx hres hst] at hrun
      cases v with
      | object vo =>
        have hobject := objects_outcome_succ h hobjects (m + 1) allow _ vo b hx hres hnames
          (by rw [variantToStream_struct hx hres hst]; exact hrun)
        rw [objectTrip, hst] at hobject
        exact .of_object hb ha ho hvd rfl hobject
      | array va =>
        obtain ⟨_, hassert, hrun⟩ := bind_eq_ok.1 hrun
        have hbase := eosAssert_eq_ok.1 hassert
        have hnone : s.packBase (s.variantToStream raw n) st [] = .ok [] := if_pos hbase
        have hobject := struct_outcome (m := m) h hobjects hx hres hnames hst hnone hrun
        rw [baseTrip, if_pos hbase, if_pos hbase, Nat.zero_add] at hobject
        exact .of_object hb ha ho hvd rfl hobject
      | _ => cases hrun
    · exact .confused

end Values

section Runs

variable {raw : FcRaw} {n : Nat}

/-- **One more scope.** -/
theorem values_outcome_succ (hraw : raw.Inverse)
    (hbuiltIn : ∀ x btype, s.builtInTypes x = some btype → btype.Inverse)
    (h : s.ValuesOutcome raw n) (hobjects : s.ObjectsOutcome raw n) :
    s.ValuesOutcome raw (n + 1) := by
  intro m allow t v b hrun
  cases m with
  | zero => exact ⟨fun htrip => (by cases htrip), fun _ _ _ _ hread => (by cases hread)⟩
  | succ m =>
    unfold valueTrip valueStep
    dsimp only
    cases hb : s.builtInTypes _ with
    | some btype => exact .builtIn hrun (hbuiltIn _ _ hb) hb
    | none =>
      rw [if_neg (by simp)]
      by_cases ha : isArray (s.resolveType t) = true
      · rw [if_pos ha]
        cases v with
        | array vars =>
          dsimp only
          split_ifs with hfits
          · exact .array hrun h hb hraw ha rfl hfits
          · exact .confused
        | _ =>
          simp only [variantToStream, packStep, hb, ha, ↓reduceIte] at hrun
          cases hrun
      rw [if_neg ha]
      have ha := eq_false_of_ne_true ha
      by_cases ho : isOptional (s.resolveType t) = true
      · rw [if_pos ho]
        exact .optional hrun h hb ha ho
      · rw [if_neg ho]
        have ho := eq_false_of_ne_true ho
        cases hvd : s.variants.get? (s.resolveType t) with
        | some vd =>
          dsimp only
          split
          · split_ifs with htag
            · exact .variant hrun h hb ha ho hraw hvd rfl htag
            · exact .confused
          · next hv =>
            simp only [variantToStream, packStep, hb, ha, ho, hvd, ↓reduceIte, Bool.false_eq_true]
              at hrun
            unfold packVariant at hrun
            split at hrun
            · split at hrun
              · exact absurd rfl (hv _ _)
              · cases hrun
            · cases hrun
        | none =>
          cases hst : s.structs.get? (s.resolveType t) with
          | none =>
            simp only [variantToStream, packStep, hb, ha, ho, hvd, hst, ↓reduceIte,
              Bool.false_eq_true] at hrun
            cases hrun
          | some st => exact .struct hrun h hb ha ho hobjects hvd hst

/-- By induction on the scopes: what the trip says of a value is right. -/
theorem values_outcome (hraw : raw.Inverse)
    (hbuiltIn : ∀ x btype, s.builtInTypes x = some btype → btype.Inverse) :
    s.ValuesOutcome raw n ∧ s.ObjectsOutcome raw n := by
  induction n with
  | zero => exact ⟨fun _ _ _ _ _ hrun => (by cases hrun),
      fun _ _ _ _ _ _ _ _ hrun => (by cases hrun)⟩
  | succ n ih => exact ⟨values_outcome_succ hraw hbuiltIn ih.1 ih.2, objects_outcome_succ ih.1 ih.2⟩

variable {t : TypeName}

theorem isType_unique {m : Nat} {known known' : Bool} (h : s.isType n t = .ok known)
    (h' : s.isType m t = .ok known') : known = known' := by
  have hn := isType_mono h (le_max_left n m)
  rw [isType_mono h' (le_max_right n m)] at hn
  injection hn with hn
  exact hn.symm

variable {v : Variant} {b : Bytes}

theorem variantToBinary_eq_ok
    (h : s.variantToBinary raw (n + 1) t v = .ok b) (ht : ∃ m, s.isType m t = .ok true) :
    s.isType n t = .ok true ∧ s.variantToStream raw n true t v = .ok b ∧ b.length ≤ bufferSize := by
  obtain ⟨known, hknown, h⟩ := bind_eq_ok.1 h
  obtain ⟨m, hm⟩ := ht
  obtain rfl := isType_unique hknown hm
  obtain ⟨bytes, hbytes, h⟩ := bind_eq_ok.1 h
  split_ifs at h with hsize
  · cases h
    exact ⟨hknown, hbytes, hsize⟩
  · cases h

theorem variantToBinary_of (ht : s.isType n t = .ok true)
    (h : s.variantToStream raw n true t v = .ok b) (hsize : b.length ≤ bufferSize) :
    s.variantToBinary raw (n + 1) t v = .ok b := by
  rw [variantToBinary, ht, ok_bind, if_pos rfl, h, ok_bind, if_pos hsize]

/-- The bytes are read to their end, and the value that is made of them packs to the same bytes. -/
def ComesBack (s : AbiSerializer) (raw : FcRaw) (packScopes unpackScopes : Nat) (t : TypeName)
    (b : Bytes) : Prop :=
  ∃ v, s.binaryToVariant raw unpackScopes t b = .ok (v, [])
    ∧ s.variantToBinary raw packScopes t v = .ok b

end Runs

/-! ## Examples -/

section Examples

/-- Sizes as `fc` packs them. -/
def varuintRaw : FcRaw where
  packUnsignedInt := packVaruint 5
  unpackUnsignedInt stream :=
    match unpackVaruint 5 stream with
    | none => eosThrow .outOfRangeException "datastream unexpected end of stream"
    | some r => .ok r
  asBytes _ := eosThrow .badCastException "Invalid cast"

theorem varuintRaw_inverse : varuintRaw.Inverse where
  ne_nil := packVaruint_ne_nil 4
  recovers n rest h := by
    unfold varuintRaw
    dsimp only
    rw [unpackVaruint_packVaruint (lt_trans h (by decide))]

def byteType : BuiltIn where
  pack
    | false, false, .uint64 n =>
      if n < 256 then .ok [UInt8.ofNat n] else eosThrow .outOfRangeException ""
    | false, true, .null => .ok [0]
    | false, true, .uint64 n =>
      if n < 256 then .ok [1, UInt8.ofNat n] else eosThrow .outOfRangeException ""
    | _, _, _ => eosThrow .badCastException "Invalid cast"
  unpack
    | false, false, x :: rest => .ok (.uint64 x.toNat, rest)
    | false, true, 0 :: rest => .ok (.null, rest)
    | false, true, _ :: x :: rest => .ok (.uint64 x.toNat, rest)
    | _, _, _ => eosThrow .outOfRangeException "datastream unexpected end of stream"

theorem byteType_pack_eq_ok {array optional : Bool} {v : Variant} {bytes : Bytes}
    (h : byteType.pack array optional v = .ok bytes) :
    array = false ∧ (v = .null ∧ optional = true ∧ bytes = [0] ∨ ∃ n, v = .uint64 n ∧ n < 256
      ∧ bytes = if optional = true then [1, UInt8.ofNat n] else [UInt8.ofNat n]) := by
  unfold byteType at h
  dsimp only at h
  split at h
  · next n =>
    split_ifs at h with hn
    · cases h
      exact ⟨rfl, .inr ⟨n, rfl, hn, rfl⟩⟩
    · cases h
  · cases h
    exact ⟨rfl, .inl ⟨rfl, rfl, rfl⟩⟩
  · next n =>
    split_ifs at h with hn
    · cases h
      exact ⟨rfl, .inr ⟨n, rfl, hn, rfl⟩⟩
    · cases h
  · cases h

theorem byteType_inverse : byteType.Inverse where
  ne_nil array optional v bytes h := by
    obtain ⟨-, ⟨-, -, rfl⟩ | ⟨n, -, -, rfl⟩⟩ := byteType_pack_eq_ok h
    · exact cons_ne_nil _ _
    · split_ifs <;> exact cons_ne_nil _ _
  recovers array optional v bytes h := by
    refine ⟨v, h, ?_⟩
    obtain ⟨rfl, ⟨rfl, rfl, rfl⟩ | ⟨n, rfl, hn, rfl⟩⟩ := byteType_pack_eq_ok h
    · exact ⟨rfl, fun _ => rfl⟩
    · have hnat : (UInt8.ofNat n).toNat = n := by
        rw [UInt8.toNat_ofNat']
        omega
      refine ⟨(Bool.and_false _).symm, fun rest => ?_⟩
      cases optional with
      | false | true => simp [byteType, hnat]

def byteTypes (x : TypeName) : Option BuiltIn := if x = "byte".toList then some byteType else none

theorem byteTypes_inverse (x : TypeName) (btype : BuiltIn) (h : byteTypes x = some btype) :
    btype.Inverse := by
  unfold byteTypes at h
  split_ifs at h
  cases h
  exact byteType_inverse

theorem exists_of_setAbi {scopes : Nat} {builtInTypes : TypeName → Option BuiltIn} {abi : AbiDef}
    {P : AbiSerializer → Prop} [DecidablePred P]
    (h : (match setAbi scopes builtInTypes abi with
      | .ok s => decide (P s)
      | .error _ => false) = true) :
    ∃ s, setAbi scopes builtInTypes abi = .ok s ∧ P s := by
  split at h
  · next s hs => exact ⟨s, hs, of_decide_eq_true h⟩
  · cases h

/-- An ABI with a base, an extension, an array, an optional and a variant. -/
def ledgerAbi : AbiDef where
  version := "eosio::abi/1.1".toList
  types := [⟨"amount".toList, "byte".toList⟩, ⟨"entries".toList, "entry[]".toList⟩]
  structs := [⟨"entry".toList, [], [⟨"value".toList, "amount".toList⟩]⟩,
    ⟨"ledger".toList, "entry".toList, [⟨"entries".toList, "entries".toList⟩,
      ⟨"last".toList, "either?".toList⟩, ⟨"memo".toList, "byte$".toList⟩]⟩]
  actions := [⟨1, "ledger".toList⟩]
  tables := [⟨2, "entry".toList⟩]
  errorMessages := []
  variants := [⟨"either".toList, ["amount".toList, "entry".toList]⟩]

/-- A ledger without memo. -/
def ledgerValue : Variant :=
  .object [("value".toList, .uint64 1),
    ("entries".toList, .array [.array [.uint64 2], .object [("value".toList, .uint64 3)]]),
    ("last".toList, .array [.string "entry".toList, .array [.uint64 4]])]

/-- An ABI with a field that is no extension after an extension, a struct without fields, a field
name twice, a struct in itself, and a typedef of an optional. -/
def oddAbi : AbiDef where
  version := "eosio::abi/1.1".toList
  types := [⟨"maybe".toList, "byte?".toList⟩]
  structs := [⟨"gap".toList, [], [⟨"a".toList, "byte".toList⟩, ⟨"b".toList, "byte$".toList⟩,
      ⟨"c".toList, "byte".toList⟩]⟩,
    ⟨"empty".toList, [], []⟩,
    ⟨"twice".toList, [], [⟨"a".toList, "byte".toList⟩, ⟨"a".toList, "byte".toList⟩]⟩,
    ⟨"deep".toList, [], [⟨"a".toList, "byte".toList⟩, ⟨"in".toList, "deep$".toList⟩]⟩]
  actions := []
  tables := []
  errorMessages := []
  variants := []

/-- A value of `deep`, `n` levels below the first one. -/
def deepValue : Nat → Variant
  | 0 => .object [("a".toList, .uint64 1)]
  | n + 1 => .object [("a".toList, .uint64 1), ("in".toList, deepValue n)]

end Examples

end AbiSerializer

end PotatoNode.Chain
