import WorkflowInference.Proofs.Compile.Step

/-!
Values by their types. A value that is given for an input of a leaf type, or of an array of leaves,
is brought into the form of its type leaf by leaf, also where leaves or the array may be left out.
In an array of arrays the inner arrays stay as they are given.
-/
namespace WorkflowInference.Compile

inductive BaseType
  | file | directory | text | whole | real | truth

namespace BaseType

def name : BaseType → String
  | file => "File"
  | directory => "Directory"
  | text => "string"
  | whole => "int"
  | real => "float"
  | truth => "boolean"

def convert (format v : Doc) : BaseType → Result Doc
  | file =>
    .ok (Doc.obj ([("class", .str "File"), ("location", v)] ++
      (if format.truthy then [("format", format)] else [])))
  | directory => .ok (Doc.obj [("class", .str "Directory"), ("location", v)])
  | text => .ok (.str v.text)
  | whole => wholeNumber v
  | real => realNumber v
  | truth => .ok (.bool v.truthy)

end BaseType

inductive ValueType
  | leaf (nullable : Bool) (l : BaseType)
  | array (nullable : Bool) (items : ValueType)

namespace ValueType

def doc : ValueType → Doc
  | leaf nullable l => if nullable then Param.optional (.str l.name) else .str l.name
  | array nullable items =>
    if nullable then Param.optional (Param.arrayOf items.doc) else Param.arrayOf items.doc

def levels : ValueType → Nat
  | leaf _ _ => 0
  | array _ items => items.levels + 1

def values : Doc → List Doc
  | .list vs => vs
  | v => [v]

def convert (format : Doc) : ValueType → Doc → Result Doc
  | leaf _ l, v => l.convert format v
  | array _ items, v => do return .list (← (values v).mapM (items.convert format))

def scattered (t : ValueType) : Bool → ValueType
  | true => array false t
  | false => t

def core : ValueType → Doc
  | leaf _ l => .str l.name
  | array _ items => Param.arrayOf items.doc

theorem withoutNull_optional (h : d ≠ .str "null") : withoutNull (Param.optional d) = d := by
  have hkept : (!(d == .str "null")) := by
    rw [Bool.not_eq_true', Bool.eq_false_iff, Ne, Doc.beq_str_iff]
    exact h
  simp [withoutNull, Param.optional, hkept]

theorem withoutNull_doc (t : ValueType) : withoutNull t.doc = t.core := by
  cases t with
  | leaf nullable l =>
    cases nullable with
    | true => exact withoutNull_optional (by cases l <;> simp [BaseType.name])
    | false =>
      have hplain : Text.endsWith l.name "?" = false := by cases l <;> decide +kernel
      simp [doc, core, withoutNull, hplain]
  | array nullable items =>
    cases nullable with
    | true => exact withoutNull_optional (by simp [Param.arrayOf, Doc.obj])
    | false => rfl

theorem scalarInput_core (t : ValueType) (format v : Doc) :
    scalarInput t.core v format = if t.levels = 0 then t.convert format v else .ok v := by
  cases t with
  | leaf nullable l => cases l <;> rfl
  | array nullable items => rfl

theorem arrayInput_doc (t : ValueType) (format v : Doc) :
    arrayInput t.doc v format = if t.levels = 0 then
      (do return .list (← (values v).mapM (t.convert format))) else .ok (.list (values v)) := by
  have hvalues : arrayInput t.doc v format =
      (do return .list (← (values v).mapM fun v => scalarInput t.core v format)) := by
    rw [← withoutNull_doc]
    cases v <;> rfl
  rw [hvalues]
  simp only [scalarInput_core]
  split
  · rfl
  · have hsame : (values v).mapM (fun v => (.ok v : Result Doc)) = .ok (values v) :=
      Result.mapM_of_forall₂ (List.forall₂_same.mpr fun _ _ => rfl)
    rw [hsame]
    rfl

end ValueType

theorem itemsOf?_arrayOf (d : Doc) : itemsOf? (Param.arrayOf d) = some (.ok d) := by
  have htype : (some (Doc.str "array") == some (.str "array")) := Doc.beq_str_iff.mpr rfl
  simp [itemsOf?, Param.arrayOf, Doc.obj, Entries.get?, Doc.field, htype]

theorem jobInput_doc {given v : Doc} {t : ValueType} (htype : under? given "type" = some t.doc)
    (hval : under? given "value" = some v) (hv : v.isNull = false) :
    jobInput given = if t.levels ≤ 1 then t.convert ((under? given "format").getD .null) v
      else .ok (.list (ValueType.values v)) := by
  obtain ⟨es, rfl, -⟩ := mem_of_under? htype
  have hread : ∀ d k, (Doc.map es).fieldD k d = .ok ((under? (.map es) k).getD d) := fun _ _ => rfl
  unfold jobInput
  rw [field_eq_ok.mpr htype, hread, hread, hval]
  simp only [bind, Except.bind, Option.getD_some, hv, t.withoutNull_doc]
  cases t with
  | leaf nullable l =>
    exact (ValueType.scalarInput_core (.leaf nullable l) _ v).trans (by simp [ValueType.levels])
  | array nullable items =>
    have hfound : [Param.arrayOf items.doc].findSome? itemsOf? = some (.ok items.doc) := by
      rw [List.findSome?_cons, itemsOf?_arrayOf]
    have hlevels : (ValueType.array nullable items).levels ≤ 1 ↔ items.levels = 0 := by
      rw [ValueType.levels]
      omega
    simp only [ValueType.core, Param.arrayOf, Doc.obj, List.map_cons, List.map_nil,
      hlevels] at hfound ⊢
    rw [hfound]
    exact items.arrayInput_doc _ v

/-- The value of an input is brought into the form of its type as far as arrays are not nested, the
one of a scattered input as an array counted in. Otherwise its items are as they were given. -/
theorem jobInput_by_type {step sig v : Doc} {arg : String} {es : Entries} {t : ValueType}
    (htype : under? sig "type" = some t.doc) (hv : v.isNull = false)
    (h : givenSig step arg sig = .ok es) :
    ∃ scattered, ((under? step "scatter").getD (.list [])).holds arg = .ok scattered ∧
      jobInput (.map (Entries.put es "value" v)) =
        if (t.scattered scattered).levels ≤ 1 then
        (t.scattered scattered).convert ((under? sig "format").getD .null) v
        else .ok (.list (ValueType.values v)) := by
  obtain ⟨scatter, hscatter, fs, hfs, scattered, hscattered, h⟩ := Result.of_bind₃ h
  rw [entries_eq_ok] at hfs
  subst hfs
  refine ⟨scattered, fieldD_eq_ok hscatter ▸ hscattered, ?_⟩
  have hsig : under? (.map es) "type" = some (t.scattered scattered).doc ∧
      under? (.map es) "format" = under? (.map fs) "format" := by
    split at h
    · obtain ⟨type, hfield, h⟩ := Result.of_bind h
      rw [field_eq_ok, htype] at hfield
      rename_i hyes _
      cases hfield
      rw [← Result.pure_eq_ok.mp h, hyes]
      exact ⟨by simp [ValueType.scattered, ValueType.doc], by simp [Entries.get?_put_ne]⟩
    · rename_i hno
      rw [← Result.pure_eq_ok.mp h, Bool.eq_false_iff.mpr hno]
      exact ⟨htype, rfl⟩
  have hput : ∀ k, k ≠ "value" → under? (.map (Entries.put es "value" v)) k = under? (.map es) k :=
    fun k hk =>
    Entries.get?_put_ne hk.symm
  rw [jobInput_doc (t := t.scattered scattered) (v := v) ?_ ?_ hv, hput _ (by decide), hsig.2]
  · rw [hput _ (by decide), hsig.1]
  · simp

theorem jobInput_by_type_scattered :
    ∃ es, givenSig (Doc.obj [("scatter", .list [.str "f"])]) "f"
      (Doc.obj [("type", Param.optional (.str "File"))]) = .ok es ∧
      jobInput (.map (Entries.put es "value" (.list [.str "a", .str "b"]))) =
      .ok (.list [Doc.obj [("class", .str "File"), ("location", .str "a")],
      Doc.obj [("class", .str "File"), ("location", .str "b")]]) := by
  have hsig : givenSig (Doc.obj [("scatter", .list [.str "f"])]) "f"
      (Doc.obj [("type", Param.optional (.str "File"))]) =
      .ok [(.str "type", Param.arrayOf (Param.optional (.str "File")))] := by with_unfolding_all rfl
  obtain ⟨scattered, hscattered, h⟩ :=
    jobInput_by_type (t := .leaf true .file) (v := .list [.str "a", .str "b"]) rfl rfl hsig
  obtain rfl : scattered = true := by
    rw [← Except.ok.inj hscattered]
    decide +kernel
  exact ⟨_, hsig, h⟩

end WorkflowInference.Compile
