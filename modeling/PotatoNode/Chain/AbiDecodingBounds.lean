import PotatoNode.Chain.AbiRoundTrip

/-!
# Decoding is bounded by the input

The size of an array comes from the stream and may be any number of 32 bits. What keeps the loop
over the items from running that often is that each item takes at least one byte: a struct must have
got a field, and the other types have a size, a flag or a tag in front.
-/

namespace PotatoNode.Chain

open Lib Nat

/-- What is read has at least one byte. In an array, of which the unpacker decodes so many elements
before it returns or throws, there is a size and at least one byte for each of them. -/
structure BuiltIn.Consumes (b : BuiltIn) (decoded : Bytes → Nat) : Prop where
  value : ∀ optional stream v rest, b.unpack false optional stream = .ok (v, rest) →
    rest.length < stream.length
  array : ∀ optional stream v rest, b.unpack true optional stream = .ok (v, rest) →
    ∃ items, v = .array items ∧ items.length = decoded stream
      ∧ items.length + 1 + rest.length ≤ stream.length
  decoded_le : ∀ stream, decoded stream ≤ stream.length

def FcRaw.Consumes (raw : FcRaw) : Prop :=
  ∀ stream n rest, raw.unpackUnsignedInt stream = .ok (n, rest) → rest.length < stream.length

theorem rethrowAs_eq_ok {α : Type} {type : ExceptionType} {message : String} {x : Result α} {a : α}
    (h : rethrowAs type message x = .ok a) : x = .ok a := by
  unfold rethrowAs at h
  split at h
  · split_ifs at h
    · cases h
  · cases h
  · exact h

namespace AbiSerializer

variable (s : AbiSerializer)

/-! ## Counting -/

mutual

/-- The value, read as one of the type, has so many array elements in it, those within its elements
included. -/
inductive Elements : TypeName → Variant → Nat → Prop where
  | builtIn {type : TypeName} {b : BuiltIn} {v : Variant}
      (hb : s.builtInTypes (fundamentalType (s.resolveType type)) = some b)
      (harray : isArray (s.resolveType type) = false) : Elements type v 0
  | builtInArray {type : TypeName} {b : BuiltIn} {items : List Variant}
      (hb : s.builtInTypes (fundamentalType (s.resolveType type)) = some b)
      (harray : isArray (s.resolveType type) = true) : Elements type (.array items) items.length
  | array {type : TypeName} {items : List Variant} {n : Nat}
      (harray : isArray (s.resolveType type) = true)
      (hitems : ItemsElements (fundamentalType (s.resolveType type)) items n) :
      Elements type (.array items) n
  | absent {type : TypeName} (hoptional : isOptional (s.resolveType type) = true) :
      Elements type .null 0
  | present {type : TypeName} {v : Variant} {n : Nat}
      (hoptional : isOptional (s.resolveType type) = true)
      (hv : Elements (fundamentalType (s.resolveType type)) v n) : Elements type v n
  | variant {type : TypeName} {vd : VariantDef} {select : Nat} {type' : TypeName} {v : Variant}
      {n : Nat} (hvd : s.variants.get? (s.resolveType type) = some vd)
      (hselect : vd.types[select]? = some type') (hv : Elements type' v n) :
      Elements type (.array [.string type', v]) n
  | object {type : TypeName} {obj : VariantObject} {n : Nat}
      (hobj : ObjectElements (s.resolveType type) [] obj n) : Elements type (.object obj) n

inductive ItemsElements : TypeName → List Variant → Nat → Prop where
  | nil {type : TypeName} : ItemsElements type [] 0
  | cons {type : TypeName} {v : Variant} {items : List Variant} {n k : Nat}
      (hv : Elements type v n) (hitems : ItemsElements type items k) :
      ItemsElements type (v :: items) (n + 1 + k)

/-- The fields of a struct that were added to an object. -/
inductive ObjectElements : TypeName → VariantObject → VariantObject → Nat → Prop where
  | own {type : TypeName} {st : StructDef} {obj obj' : VariantObject} {n : Nat}
      (hst : s.structs.get? type = some st) (hbase : st.base = [])
      (hfields : FieldsElements st.fields obj obj' n) : ObjectElements type obj obj' n
  | base {type : TypeName} {st : StructDef} {obj obj₁ obj' : VariantObject} {n k : Nat}
      (hst : s.structs.get? type = some st) (hbase : st.base ≠ [])
      (hobj : ObjectElements (s.resolveType st.base) obj obj₁ n)
      (hfields : FieldsElements st.fields obj₁ obj' k) : ObjectElements type obj obj' (n + k)

inductive FieldsElements : List FieldDef → VariantObject → VariantObject → Nat → Prop where
  | nil {obj : VariantObject} : FieldsElements [] obj obj 0
  | missing {field : FieldDef} {fields : List FieldDef} {obj obj' : VariantObject}
      (hextension : isBinExtension field.type = true) (hfields : FieldsElements fields obj obj' 0) :
      FieldsElements (field :: fields) obj obj' 0
  | cons {field : FieldDef} {fields : List FieldDef} {obj obj' : VariantObject} {v : Variant}
      {n k : Nat} (hv : Elements (s.resolveType (removeBinExtension field.type)) v n)
      (hfields : FieldsElements fields (obj.set field.name v) obj' k) :
      FieldsElements (field :: fields) obj obj' (n + k)

end

section Count

variable (unpack : TypeName → Bytes → Result (Variant × Bytes)) (count : TypeName → Bytes → Nat)

/-- The elements decoded by the loop of an array, those within its elements included, until it ends
or an element fails. -/
def countItems (type : TypeName) : (size : Nat) → Bytes → Nat
  | 0, _ => 0
  | size + 1, stream =>
    match unpack type stream with
    | .error _ => count type stream
    | .ok (v, rest) =>
      count type stream + 1 + if v.isNull = true then 0 else countItems type size rest

/-- The elements decoded in the fields of a struct. At the end of the stream none is left. -/
def countFields : List FieldDef → Bytes → Nat
  | [], _ => 0
  | field :: rest, stream =>
    if stream = [] then 0
    else
      let type := s.resolveType (removeBinExtension field.type)
      match unpack type stream with
      | .error _ => count type stream
      | .ok (_, stream') => count type stream + countFields rest stream'

end Count

section

variable (raw : FcRaw) (decoded : TypeName → Bytes → Nat)

mutual

/-- The array elements that a call of `_binary_to_variant` decodes in all, whether it returns or
throws; `decoded` are those in arrays of built-in types. -/
def itemsDecoded : (scopes : Nat) → TypeName → Bytes → Nat
  | 0, _, _ => 0
  | scopes + 1, type, stream =>
    let rtype := s.resolveType type
    let ftype := fundamentalType rtype
    if (s.builtInTypes ftype).isSome = true then
      if isArray rtype = true then decoded ftype stream else 0
    else if isArray rtype = true then
      match raw.unpackUnsignedInt stream with
      | .error _ => 0
      | .ok (size, stream) =>
        countItems (s.streamToVariant raw scopes) (itemsDecoded scopes) ftype size stream
    else if isOptional rtype = true then
      match stream with
      | [] => 0
      | flag :: stream => if flag ≠ 0 then itemsDecoded scopes ftype stream else 0
    else
      match s.variants.get? rtype with
      | some v =>
        match raw.unpackUnsignedInt stream with
        | .error _ => 0
        | .ok (select, stream) =>
          match v.types[select]? with
          | none => 0
          | some type => itemsDecoded scopes type stream
      | none => itemsOfObject scopes rtype stream []

def itemsOfObject : (scopes : Nat) → TypeName → Bytes → VariantObject → Nat
  | 0, _, _, _ => 0
  | scopes + 1, type, stream, obj =>
    match s.structs.get? type with
    | none => 0
    | some st =>
      let own := s.countFields (s.streamToVariant raw scopes) (itemsDecoded scopes) st.fields
      if st.base = [] then own stream
      else
        let inherited := itemsOfObject scopes (s.resolveType st.base) stream obj
        match s.streamToObject raw scopes (s.resolveType st.base) stream obj with
        | .error _ => inherited
        | .ok (_, stream) => inherited + own stream

end

end

variable {s} {raw : FcRaw} {decoded : TypeName → Bytes → Nat} {n : Nat}

/-! ## Values and fields -/

/-- A value takes a byte more than there are elements in it. -/
def ValuesBounded (s : AbiSerializer) (raw : FcRaw) (decoded : TypeName → Bytes → Nat) (n : Nat) :
    Prop :=
  ∀ type stream, s.itemsDecoded raw decoded n type stream ≤ stream.length ∧
    ∀ v rest, s.streamToVariant raw n type stream = .ok (v, rest) →
      s.itemsDecoded raw decoded n type stream + 1 + rest.length ≤ stream.length
        ∧ s.Elements type v (s.itemsDecoded raw decoded n type stream)

def FieldsBounded (count : Nat) (stream rest : Bytes) (obj obj' : VariantObject) : Prop :=
  count + rest.length ≤ stream.length ∧
    (obj' = obj ∨ count + 1 + rest.length ≤ stream.length)

def ObjectsBounded (s : AbiSerializer) (raw : FcRaw) (decoded : TypeName → Bytes → Nat) (n : Nat) :
    Prop :=
  ∀ type stream obj, s.itemsOfObject raw decoded n type stream obj ≤ stream.length ∧
    ∀ obj' rest, s.streamToObject raw n type stream obj = .ok (obj', rest) →
      FieldsBounded (s.itemsOfObject raw decoded n type stream obj) stream rest obj obj'
        ∧ s.ObjectElements type obj obj' (s.itemsOfObject raw decoded n type stream obj)

theorem ValuesBounded.countItems_le (h : s.ValuesBounded raw decoded n) (type : TypeName)
    (size : Nat) (stream : Bytes) :
    countItems (s.streamToVariant raw n) (s.itemsDecoded raw decoded n) type size stream
      ≤ stream.length ∧
      ∀ vars rest, unpackItems (s.streamToVariant raw n) type size stream = .ok (vars, rest) →
        countItems (s.streamToVariant raw n) (s.itemsDecoded raw decoded n) type size stream
          + rest.length ≤ stream.length ∧ s.ItemsElements type vars
          (countItems (s.streamToVariant raw n) (s.itemsDecoded raw decoded n) type size stream) := by
  induction size generalizing stream with
  | zero =>
    refine ⟨zero_le _, fun vars rest hrun => ?_⟩
    cases hrun
    exact ⟨by simp [countItems], .nil⟩
  | succ size ih =>
    obtain ⟨hle, hvalue⟩ := h type stream
    cases hrun : s.streamToVariant raw n type stream with
    | error e =>
      rw [countItems, unpackItems, hrun]
      exact ⟨hle, fun _ _ hitems => by cases hitems⟩
    | ok r =>
      obtain ⟨v, stream'⟩ := r
      obtain ⟨hvalue, hv⟩ := hvalue v stream' hrun
      obtain ⟨hle', hrest⟩ := ih stream'
      rw [countItems, unpackItems, hrun, ok_bind]
      dsimp only
      cases hnull : v.isNull with
      | true => exact ⟨by rw [if_pos rfl]; omega, fun _ _ hitems => by cases hitems⟩
      | false =>
        rw [if_neg (by simp), eosAssert_of rfl, ok_bind]
        refine ⟨by omega, fun vars rest hitems => ?_⟩
        obtain ⟨r, hr, hdone⟩ := bind_eq_ok.1 hitems
        cases hdone
        obtain ⟨hlength, hvars⟩ := hrest _ _ hr
        exact ⟨by omega, .cons hv hvars⟩

theorem ValuesBounded.countFields_le (h : s.ValuesBounded raw decoded n) (fields : List FieldDef)
    (stream : Bytes) :
    s.countFields (s.streamToVariant raw n) (s.itemsDecoded raw decoded n) fields stream
      ≤ stream.length ∧
      ∀ encountered obj obj' rest,
        s.unpackFields (s.streamToVariant raw n) encountered fields stream obj = .ok (obj', rest) →
        FieldsBounded
          (s.countFields (s.streamToVariant raw n) (s.itemsDecoded raw decoded n) fields stream)
          stream rest obj obj'
        ∧ s.FieldsElements fields obj obj'
          (s.countFields (s.streamToVariant raw n) (s.itemsDecoded raw decoded n) fields stream) := by
  induction fields generalizing stream with
  | nil =>
    refine ⟨zero_le _, fun encountered obj obj' rest hrun => ?_⟩
    cases hrun
    exact ⟨⟨by simp [countFields], .inl rfl⟩, .nil⟩
  | cons field fields ih =>
    by_cases hnil : stream = []
    · -- only extensions are left, and they are skipped
      subst hnil
      have hcount : ∀ fields, s.countFields (s.streamToVariant raw n) (s.itemsDecoded raw decoded n)
          fields [] = 0 := by
        intro fields
        cases fields with
        | nil | cons => rfl
      rw [hcount]
      refine ⟨zero_le _, fun encountered obj obj' rest hrun => ?_⟩
      rw [unpackFields, if_pos rfl] at hrun
      split_ifs at hrun with hextension
      · obtain ⟨hbounded, hfields⟩ := (ih []).2 _ _ _ _ hrun
        rw [hcount] at hbounded hfields
        exact ⟨hbounded, .missing hextension hfields⟩
      · cases hrun
      · cases hrun
    · obtain ⟨hle, hvalue⟩ := h _ stream
      rw [countFields, if_neg hnil]
      dsimp only
      cases hrun : s.streamToVariant raw n _ stream with
      | error e =>
        refine ⟨hle, fun encountered obj obj' rest hfields => ?_⟩
        rw [unpackFields, if_neg hnil, hrun] at hfields
        cases hfields
      | ok r =>
        obtain ⟨v, stream'⟩ := r
        obtain ⟨hvalue, hv⟩ := hvalue v stream' hrun
        obtain ⟨hle', hrest⟩ := ih stream'
        dsimp only
        refine ⟨by omega, fun encountered obj obj' rest hfields => ?_⟩
        rw [unpackFields, if_neg hnil, hrun] at hfields
        obtain ⟨⟨hle, -⟩, hread⟩ := hrest _ _ _ _ hfields
        exact ⟨⟨by omega, .inr (by omega)⟩, .cons hv hread⟩

/-! ## Calls -/

theorem ValuesBounded.succ (hraw : raw.Consumes)
    (hbuiltIn : ∀ x b, s.builtInTypes x = some b → b.Consumes (decoded x))
    (hvalues : s.ValuesBounded raw decoded n) (hobjects : s.ObjectsBounded raw decoded n) :
    s.ValuesBounded raw decoded (n + 1) := by
  intro type stream
  unfold itemsDecoded streamToVariant unpackStep
  dsimp only
  cases hb : s.builtInTypes _ with
  | some b =>
    rw [if_pos Option.isSome_some]
    dsimp only
    have hconsumes := hbuiltIn _ b hb
    split_ifs with harray
    · refine ⟨hconsumes.decoded_le _, fun v rest hrun => ?_⟩
      rw [harray] at hrun
      obtain ⟨items, rfl, hitems, hle⟩ := hconsumes.array _ _ _ _ (rethrowAs_eq_ok hrun)
      exact ⟨hitems ▸ hle, hitems ▸ .builtInArray hb harray⟩
    · rw [Bool.not_eq_true] at harray
      refine ⟨zero_le _, fun v rest hrun => ⟨?_, .builtIn hb harray⟩⟩
      rw [harray] at hrun
      have := hconsumes.value _ _ _ _ (rethrowAs_eq_ok hrun)
      omega
  | none =>
    rw [if_neg (by simp)]
    split_ifs with harray hoptional
    · cases hsize : raw.unpackUnsignedInt stream with
      | error e =>
        refine ⟨zero_le _, fun v rest hrun => ?_⟩
        obtain ⟨r, hr, -⟩ := bind_eq_ok.1 hrun
        cases rethrowAs_eq_ok hr
      | ok r =>
        obtain ⟨size, stream'⟩ := r
        have hlt := hraw _ _ _ hsize
        obtain ⟨hle, hitems⟩ := hvalues.countItems_le (fundamentalType (s.resolveType type)) size
          stream'
        refine ⟨by dsimp only; omega, fun v rest hrun => ?_⟩
        obtain ⟨r, hr, r', hr', _, -, hrun⟩ := bind₃_eq_ok.1 hrun
        cases rethrowAs_eq_ok hr
        cases hrun
        obtain ⟨hlength, hvars⟩ := hitems _ _ hr'
        exact ⟨by dsimp only; omega, .array harray hvars⟩
    · cases stream with
      | nil => exact ⟨zero_le _, fun _ _ hrun => by cases hrun⟩
      | cons flag stream =>
        dsimp only
        obtain ⟨hle, hvalue⟩ := hvalues _ stream
        split_ifs with hflag
        · refine ⟨le_succ_of_le hle, fun v rest hrun => ?_⟩
          obtain ⟨hlength, hv⟩ := hvalue v rest hrun
          exact ⟨le_succ_of_le hlength, .present hoptional hv⟩
        · refine ⟨zero_le _, fun v rest hrun => ?_⟩
          cases hrun
          rw [List.length_cons]
          exact ⟨by omega, .absent hoptional⟩
    · cases hvariant : s.variants.get? _ with
      | some v =>
        cases hselect : raw.unpackUnsignedInt stream with
        | error e =>
          refine ⟨zero_le _, fun v rest hrun => ?_⟩
          obtain ⟨r, hr, -⟩ := bind_eq_ok.1 hrun
          cases rethrowAs_eq_ok hr
        | ok r =>
          obtain ⟨select, stream'⟩ := r
          have hlt := hraw _ _ _ hselect
          dsimp only
          cases htype : v.types[select]? with
          | none =>
            refine ⟨zero_le _, fun v rest hrun => ?_⟩
            obtain ⟨r, hr, hrun⟩ := bind_eq_ok.1 hrun
            cases rethrowAs_eq_ok hr
            simp only [htype] at hrun
            cases hrun
          | some type' =>
            obtain ⟨hle, hvalue⟩ := hvalues type' stream'
            refine ⟨by dsimp only; omega, fun v rest hrun => ?_⟩
            obtain ⟨r, hr, hrun⟩ := bind_eq_ok.1 hrun
            cases rethrowAs_eq_ok hr
            simp only [htype] at hrun
            obtain ⟨r, hr, hrun⟩ := bind_eq_ok.1 hrun
            cases hrun
            obtain ⟨hlength, hv⟩ := hvalue _ _ hr
            exact ⟨by dsimp only; omega, .variant hvariant htype hv⟩
      | none =>
        obtain ⟨hle, hobject⟩ := hobjects _ stream []
        refine ⟨hle, fun v rest hrun => ?_⟩
        obtain ⟨⟨obj, rest'⟩, hobj, _, hfield, hrun⟩ := bind₂_eq_ok.1 hrun
        cases hrun
        obtain ⟨⟨-, hlt⟩, hread⟩ := hobject _ _ hobj
        refine ⟨hlt.resolve_left fun hnil => ?_, .object hread⟩
        subst hnil
        exact absurd (eosAssert_eq_ok.1 hfield) (by simp)

theorem ObjectsBounded.succ (hvalues : s.ValuesBounded raw decoded n)
    (hobjects : s.ObjectsBounded raw decoded n) : s.ObjectsBounded raw decoded (n + 1) := by
  intro type stream obj
  rw [itemsOfObject]
  cases hst : s.structs.get? type with
  | none =>
    refine ⟨zero_le _, fun obj' rest hrun => ?_⟩
    rw [streamToObject, unpackObjectStep, hst] at hrun
    cases hrun
  | some st =>
    rw [streamToObject_struct hst]
    dsimp only [unpackBase]
    split_ifs with hbase
    · obtain ⟨hle, hfields⟩ := hvalues.countFields_le st.fields stream
      refine ⟨hle, fun obj' rest hrun => ?_⟩
      obtain ⟨hbounded, hread⟩ := hfields _ _ _ _ hrun
      exact ⟨hbounded, .own hst hbase hread⟩
    · obtain ⟨hle, hobject⟩ := hobjects _ stream obj
      cases hrun : s.streamToObject raw n _ stream obj with
      | error e => exact ⟨hle, fun _ _ hrun => by cases hrun⟩
      | ok r =>
        obtain ⟨obj₁, stream₁⟩ := r
        obtain ⟨⟨hle, hobj⟩, hinherited⟩ := hobject obj₁ stream₁ hrun
        obtain ⟨hle', hfields⟩ := hvalues.countFields_le st.fields stream₁
        refine ⟨by dsimp only; omega, fun obj' rest hown => ?_⟩
        obtain ⟨⟨hrest, hobj'⟩, hread⟩ := hfields _ _ _ _ hown
        dsimp only
        refine ⟨⟨by omega, ?_⟩, .base hst hbase hinherited hread⟩
        rcases hobj with rfl | hobj
        · exact hobj'.imp id fun hlt => by omega
        · exact .inr (by omega)

theorem bounded (hraw : raw.Consumes)
    (hbuiltIn : ∀ x b, s.builtInTypes x = some b → b.Consumes (decoded x)) (n : Nat) :
    s.ValuesBounded raw decoded n ∧ s.ObjectsBounded raw decoded n := by
  induction n with
  | zero =>
    refine ⟨fun type stream => ⟨?_, fun _ _ hrun => by cases hrun⟩,
      fun type stream obj => ⟨?_, fun _ _ hrun => by cases hrun⟩⟩
    · simp [itemsDecoded]
    · simp [itemsOfObject]
  | succ n ih => exact ⟨ih.1.succ hraw hbuiltIn ih.2, .succ ih.1 ih.2⟩

/-- **Decoding is bounded by its input.** Every value that is decoded takes at least one byte, and
no call decodes more array elements than it is given bytes, whatever the ABI defines and the sizes
in the input say. What is counted are the elements in the value that is returned. -/
theorem decoding_bounded (hraw : raw.Consumes)
    (hbuiltIn : ∀ x b, s.builtInTypes x = some b → b.Consumes (decoded x)) (scopes : Nat)
    (type : TypeName) (stream : Bytes) :
    (∀ v rest, s.streamToVariant raw scopes type stream = .ok (v, rest) →
      rest.length < stream.length
        ∧ s.Elements type v (s.itemsDecoded raw decoded scopes type stream)) ∧
    s.itemsDecoded raw decoded scopes type stream ≤ stream.length := by
  obtain ⟨hle, hvalue⟩ := (bounded hraw hbuiltIn scopes).1 type stream
  refine ⟨fun v rest hrun => ?_, hle⟩
  obtain ⟨hlength, hv⟩ := hvalue v rest hrun
  exact ⟨by omega, hv⟩

theorem varuintRaw_consumes : varuintRaw.Consumes := by
  intro stream n rest h
  simp only [varuintRaw] at h
  split at h
  · cases h
  · next r hr =>
    cases h
    exact length_lt_of_unpackVaruint hr

/-- The sample type has no arrays. -/
theorem byteTypes_consumes (x : TypeName) (b : BuiltIn) (h : byteTypes x = some b) :
    b.Consumes fun _ => 0 := by
  unfold byteTypes at h
  split_ifs at h
  cases h
  refine ⟨fun optional stream v rest h => ?_, fun _ _ _ _ h => (by cases h), fun _ => zero_le _⟩
  simp only [byteType] at h
  split at h
  · cases h
    exact lt_succ_self _
  · cases h
    exact lt_succ_self _
  · cases h
    simp only [List.length_cons]
    omega
  · cases h

/-- An array that announces more entries than the input has bytes. -/
theorem decoding_bounded_ledgerAbi : ∃ s, setAbi 13 byteTypes ledgerAbi = .ok s
    ∧ s.itemsDecoded varuintRaw (fun _ _ => 0) 15 "entries".toList [0xff, 0xff, 0x7f, 1, 2, 3]
      ≤ 6 := by
  obtain ⟨s, hs, -⟩ : ∃ s, setAbi 13 byteTypes ledgerAbi = .ok s ∧ True :=
    exists_of_setAbi (by decide +kernel)
  obtain ⟨-, hbuiltIn⟩ := validated_of_setAbi hs
  exact ⟨s, hs,
    (decoding_bounded varuintRaw_consumes (hbuiltIn ▸ byteTypes_consumes) 15 _ _).2⟩

end AbiSerializer

end PotatoNode.Chain
