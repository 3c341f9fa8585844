import WorkflowInference.Schema.Workflow
import WorkflowInference.Proofs.Merging

/-!
Schemas of steps. The schema of a tool is well-formed if its inputs have types that schemas can tell
apart, so that such a tool cannot spoil the schema of workflow files.
-/
namespace WorkflowInference.Schema

open Entries Result List

variable {es fs about configs : Entries} {ss ts : List Doc} {ns : List String} {k : String}
  {s t u v : Doc}

theorem keywordsFit_cons : keywordsFit (e :: es) = (keywordsFit [e] && keywordsFit es) := by
  rw [keywordsFit.eq_def, keywordsFit.eq_def [e]]
  obtain ⟨k, v⟩ := e
  cases k <;> simp only [keywordsFit.eq_1, Bool.and_true, Bool.true_and]

theorem keywordsFit_iff : keywordsFit es ↔ ∀ e ∈ es, keywordsFit [e] := by
  induction es with
  | nil => simp [keywordsFit]
  | cons e es ih => rw [forall_mem_cons, ← ih, keywordsFit_cons, Bool.and_eq_true]

theorem allWellFormed_iff : allWellFormed ss ↔ ∀ s ∈ ss, isWellFormed s := by
  induction ss with
  | nil => simp [allWellFormed]
  | cons s ss ih => simp [allWellFormed, ih]

theorem membersWellFormed_iff : membersWellFormed es ↔ ∀ e ∈ es, isWellFormed e.2 := by
  induction es with
  | nil => simp [membersWellFormed]
  | cons e es ih => simp [membersWellFormed, ih]

theorem keywordsFit_append (hes : keywordsFit es) (hfs : keywordsFit fs) :
    keywordsFit (es ++ fs) := by
  rw [keywordsFit_iff] at *
  exact forall_mem_append.mpr ⟨hes, hfs⟩

theorem mem_put_remove (h : e ∈ put es k v) : e ∈ remove es k ∨ e = (.str k, v) := by
  induction es with
  | nil => exact .inr (mem_singleton.mp h)
  | cons f es ih =>
    obtain ⟨l, w⟩ := f
    cases l <;> grind [put, remove]

theorem keywordsFit_put (hes : keywordsFit (remove es k)) (h : keywordsFit [(.str k, v)]) :
    keywordsFit (put es k v) := by
  rw [keywordsFit_iff] at hes ⊢
  intro e he
  rcases mem_put_remove he with he | rfl
  · exact hes e he
  · exact h

def Formed (d : Doc) : Prop := ∃ es, d = .map es ∧ keywordsFit es

theorem Formed.isWellFormed (h : Formed v) : isWellFormed v := by
  obtain ⟨es, rfl, h⟩ := h
  exact h

theorem formed_anyOf (hne : ss ≠ []) (h : ∀ s ∈ ss, isWellFormed s) : Formed (anyOf ss) :=
  ⟨_, rfl, by simp [keywordsFit, kindOf, kinds, hne, allWellFormed_iff.mpr h]⟩

theorem isWellFormed_closed (h : ∀ e ∈ es, isWellFormed e.2) : isWellFormed (closed es) := by
  refine keywordsFit_append (by decide) ?_
  simp [keywordsFit, kindOf, kinds, membersWellFormed_iff.mpr h]

def Described (es : Entries) : Prop := ∀ k ∈ ["label", "doc"], (getD es k (.str "")).isStr

theorem Described.descriptionOf (h : Described es) :
    ∃ about, Schema.descriptionOf (.map es) = .ok about ∧ keywordsFit about ∧
      ∀ e ∈ about, ∃ k, e.1 = .str k := by
  refine ⟨_, rfl, ?_, by simp⟩
  simp [keywordsFit, kindOf, kinds, plainKind, h "label" (by simp), h "doc" (by simp)]

theorem keywordsFit_update (hes : keywordsFit es) (hfs : keywordsFit fs)
    (hstr : ∀ f ∈ fs, ∃ k, f.1 = .str k) : keywordsFit (update es fs) := by
  rw [keywordsFit_iff] at *
  intro e he
  exact (mem_update_of_str hstr he).elim (hes e) (hfs e)

/-! Types that can be said in a schema. -/

def names : List String :=
  ["null", "boolean", "int", "long", "float", "double", "string", "File", "Directory", "Any"]

/-- The types of which there can be arrays: names, and arrays that hold nothing a schema would take
for a keyword of its own. -/
inductive Element : Doc → Prop
  | name {s : String} (h : s ∈ names) : Element (.str s)
  | array {es : Entries} {t : Doc} (ht : get? es "type" = some (.str "array"))
      (hi : get? es "items" = some t) (h : Element t) (hrest : keywordsFit (remove es "items")) :
      Element (.map es)

inductive JsonOf : Doc → Doc → Prop
  | name {s n : String} (h : n ∈ typeNames) : JsonOf (.str s) (.str n)
  | any : JsonOf (.str "Any") (.map [])
  | array {es fs : Entries} (ht : get? fs "type" = some (.str "array")) (h : keywordsFit fs) :
      JsonOf (.map es) (.map fs)

theorem jsonItems_eq (es : Entries) : jsonItems es = (get? es "items").map jsonType := by
  induction es with
  | nil => simp [jsonItems]
  | cons e es ih =>
    obtain ⟨k, v⟩ := e
    by_cases hk : k = .str "items"
    · subst hk
      simp [jsonItems, get?]
    · rw [jsonItems, ih, get?_cons_ne hk]
      simpa using hk

theorem namedType_of_mem {s : String} (h : s ∈ names) (hu : namedType s = some u) :
    JsonOf (.str s) u := by
  simp only [names, mem_cons, not_mem_nil, or_false] at h
  rcases h with rfl | rfl | rfl | rfl | rfl | rfl | rfl | rfl | rfl | rfl <;> cases hu <;>
    first | exact .any | exact .name (by decide)

theorem Element.json (h : Element t) (hu : jsonType t = some u) : JsonOf t u := by
  induction h generalizing u with
  | name h => exact namedType_of_mem h (by rwa [jsonType] at hu)
  | @array es t ht hi _ hrest ih =>
    rw [jsonType, ht, jsonItems_eq, hi, Option.map_some] at hu
    cases hitems : jsonType t with
    | none => simp [hitems] at hu
    | some items =>
      simp only [hitems, Option.some.injEq] at hu
      subst hu
      refine .array (by rwa [get?_put_ne (by decide)]) (keywordsFit_put hrest ?_)
      cases ih hitems with
      | name h =>
        simp [keywordsFit, kindOf, kinds, isWellFormed, plainKind, Doc.obj, isTypeName, Doc.str?, h]
      | any => decide
      | @array _ fs h hfs =>
        cases fs with
        | nil => cases h
        | cons f fs => simpa [keywordsFit, kindOf, kinds, isWellFormed] using hfs

/-- Types of files and directories, alone, in arrays and in unions. They have no schema. -/
inductive OfFiles : Doc → Prop
  | name {s : String} (h : s ∈ ["File", "Directory"]) : OfFiles (.str s)
  | array {es : Entries} {t : Doc} (ht : get? es "type" = some (.str "array"))
      (hi : get? es "items" = some t) (h : OfFiles t) : OfFiles (.map es)
  | union {ts : List Doc} {t : Doc} (ht : t ∈ ts) (h : OfFiles t) : OfFiles (.list ts)

theorem OfFiles.jsonType (h : OfFiles t) : jsonType t = none := by
  induction h with
  | name h =>
    simp only [mem_cons, not_mem_nil, or_false] at h
    rcases h with rfl | rfl <;> rfl
  | array ht hi _ ih =>
    rw [Schema.jsonType, ht, jsonItems_eq, hi, Option.map_some, ih]
    rfl
  | @union ts t ht _ ih =>
    have hnone : jsonTypes ts = none := by
      induction ts with
      | nil => cases ht
      | cons t ts ih' =>
        rw [jsonTypes]
        rcases mem_cons.mp ht with rfl | ht
        · rw [ih]
        · rw [ih' ht]
          cases Schema.jsonType t <;> rfl
    rw [Schema.jsonType, hnone, Option.map_none]

def primitives : List (String × String) :=
  [("null", "null"), ("boolean", "boolean"), ("int", "integer"), ("long", "integer"),
    ("float", "number"), ("double", "number"), ("string", "string")]

/-- What a member of a union is in a schema, whatever an array holds. -/
def label : Doc → Option String
  | .str s => primitives.lookup s
  | .map es =>
    match get? es "type" with
    | some (.str "array") => some "array"
    | _ => none
  | _ => none

/-- Types whose schema is well-formed. The members of a union are not alike in a schema, but that
there may be a text more, and a text is not the only one. -/
inductive Sound : Doc → Prop
  | files {t : Doc} (h : OfFiles t) : Sound t
  | element {t : Doc} (h : Element t) : Sound t
  | union {ts : List Doc} {ns : List String} (h : ts.map label = ns.map some)
      (hapart : (ns.erase "string").Nodup) (hne : ns.erase "string" ≠ []) : Sound (.list ts)

theorem label_mem (h : label t = some n) : n ∈ typeNames := by
  unfold label at h
  split at h
  · rename_i s
    have hmem := Keyed.mem_of_lookup h
    have hall : ∀ e ∈ primitives, e.2 ∈ typeNames := by decide
    exact hall (s, n) hmem
  · split at h <;> cases h
    decide
  · cases h

theorem memberType_of_label (h : label t = some n) (hu : jsonType t = some u) :
    memberType u = .str n := by
  unfold label at h
  split at h
  · rename_i s
    have hmem := Keyed.mem_of_lookup h
    simp only [primitives, mem_cons, not_mem_nil, or_false, Prod.mk.injEq] at hmem
    rcases hmem with ⟨rfl, rfl⟩ | ⟨rfl, rfl⟩ | ⟨rfl, rfl⟩ | ⟨rfl, rfl⟩ | ⟨rfl, rfl⟩ | ⟨rfl, rfl⟩ |
      ⟨rfl, rfl⟩ <;> cases hu <;> rfl
  · rename_i es
    split at h <;> cases h
    rename_i harray
    rw [jsonType, harray] at hu
    split at hu
    · cases hu
    · cases hu
      have hput (v : Doc) : get? (put es "items" v) "type" = some (.str "array") := by
        rw [get?_put_ne (by decide), harray]
      simp only [memberType, hput]
    · cases hu
      simp only [memberType, harray]
  · cases h

theorem memberTypes_of_labels (h : ts.map label = ns.map some) (hus : jsonTypes ts = some us) :
    us.map memberType = ns.map .str := by
  induction ts generalizing us ns with
  | nil =>
    cases hus
    cases ns with
    | nil => rfl
    | cons n ns => cases h
  | cons t ts ih =>
    cases ns with
    | nil => cases h
    | cons n ns =>
      obtain ⟨ht, hts⟩ := cons.inj h
      rw [jsonTypes] at hus
      split at hus <;> cases hus
      rename_i hu hus
      rw [map_cons, map_cons, memberType_of_label ht hu, ih hts hus]

theorem distinct_names (h : ns.Nodup) : distinct (ns.map .str) := by
  induction ns with
  | nil => rfl
  | cons n ns ih =>
    obtain ⟨hnot, hnodup⟩ := nodup_cons.mp h
    rw [map_cons, distinct, ih hnodup, Bool.and_true, Bool.not_eq_true', any_eq_false]
    intro u hu hsame
    obtain ⟨m, hm, rfl⟩ := mem_map.mp hu
    exact hnot (Doc.str.inj (Doc.str_eq_iff.mp hsame) ▸ hm)

theorem withoutText_names (ns : List String) :
    withoutText (ns.map .str) = (ns.erase "string").map .str := by
  induction ns with
  | nil => rfl
  | cons n ns ih =>
    rw [map_cons, withoutText]
    by_cases hn : n = "string"
    · subst hn
      rw [if_pos (Doc.beq_str_iff.mpr rfl), erase_cons_head]
    · rw [if_neg (fun h => hn (Doc.str.inj (Doc.beq_str_iff.mp h))), ih,
        erase_cons_tail (by simpa using hn), map_cons]

theorem keywordsFit_names (hns : ∀ n ∈ ns, n ∈ typeNames) (hnodup : ns.Nodup) (hne : ns ≠ []) :
    keywordsFit [(.str "type", .list (ns.map .str))] := by
  have hall : (ns.map Doc.str).all isTypeName := by simpa [isTypeName, Doc.str?] using hns
  simp [keywordsFit, kindOf, kinds, plainKind, hne, distinct_names hnodup]
  simpa using hall

theorem Sound.typeSchema (h : Sound t) : (typeSchema t).truthy = false ∨
    ∃ es u, typeSchema t = .map es ∧ get? es "type" = some u ∧ keywordsFit (besideText es u) := by
  unfold Schema.typeSchema
  cases hu : jsonType t with
  | none => exact .inl rfl
  | some u =>
    cases h with
    | files h =>
      rw [h.jsonType] at hu
      cases hu
    | element h =>
      cases h.json hu with
      | name hn =>
        refine .inr ⟨_, _, rfl, rfl, ?_⟩
        simpa [besideText, keywordsFit, kindOf, kinds, plainKind, isTypeName, Doc.str?] using hn
      | any => exact .inl rfl
      | array ht hfs => exact .inr ⟨_, _, rfl, ht, hfs⟩
    | @union ts ns h hapart hne =>
      obtain ⟨us, hus, rfl⟩ := Option.map_eq_some_iff.mp ((jsonType.eq_3 ts).symm.trans hu)
      rw [memberTypes_of_labels h hus]
      refine .inr ⟨_, _, rfl, rfl, ?_⟩
      change keywordsFit [(.str "type", .list (withoutText (ns.map .str)))]
      rw [withoutText_names]
      refine keywordsFit_names (fun n hn => ?_) hapart hne
      have hsome : some n ∈ ts.map label := h ▸ mem_map_of_mem (mem_of_mem_erase hn)
      obtain ⟨t, -, ht⟩ := mem_map.mp hsome
      exact label_mem ht

def Usable (param : Doc) : Prop :=
  ∃ es t, param = .map es ∧ Described es ∧
    Param.canonical (getD es "type" (.str "")) = .ok t ∧ Sound t

theorem formed_choices (habout : keywordsFit about) (hss : ∀ s ∈ ss, isWellFormed s) :
    Formed (anyOf (.map (someText ++ about) :: aliasSchema :: literalSchema :: ss)) := by
  refine formed_anyOf (by simp) ?_
  simp only [forall_mem_cons]
  exact ⟨keywordsFit_append (by decide) habout, by decide, by decide, hss⟩

theorem inputSchema_formed (hconfigs : ∀ e ∈ configs, Formed e.2) (h : Usable v) (name : String)
    (key : Doc) : ∃ s, inputSchema configs name key v = .ok s ∧ Formed s := by
  obtain ⟨es, t, rfl, hd, ht, hs⟩ := h
  obtain ⟨about, habout, hfit, hstr⟩ := hd.descriptionOf
  have hlast {gs} (hgs : keywordsFit gs) : ∀ s ∈ [Doc.map (update gs about)], isWellFormed s :=
    forall_mem_singleton.mpr (keywordsFit_update hgs hfit hstr)
  unfold inputSchema
  rw [habout]
  dsimp only [bind, Except.bind]
  split
  · rename_i c _ hc
    obtain ⟨fs, rfl, hfs⟩ := hconfigs _ (mem_of_get? hc)
    exact ⟨_, rfl, formed_choices hfit (hlast hfs)⟩
  split
  · exact ⟨_, rfl, [], rfl, rfl⟩
  split
  · refine ⟨_, rfl, _, rfl, isWellFormed_closed (forall_mem_singleton.mpr ?_)⟩
    cases hc : get? configs "grompp" with
    | none => simp [Entries.getD, hc, isWellFormed, keywordsFit]
    | some c => simpa [Entries.getD, hc] using (hconfigs _ (mem_of_get? hc)).isWellFormed
  · simp only [Doc.fieldD, ht]
    rcases hs.typeSchema with hfalse | ⟨fs, u, hfs, hu, hfs'⟩
    · rw [hfalse]
      exact ⟨_, rfl, formed_choices hfit (forall_mem_nil _)⟩
    · rw [hfs]
      split
      · exact ⟨_, rfl, formed_choices hfit (forall_mem_nil _)⟩
      · obtain ⟨gs, w, hgs, hw, hgs'⟩ :
            ∃ gs w, (if Doc.map fs == stringType then Doc.map (someText ++ about) else .map fs) =
            .map gs ∧ get? gs "type" = some w ∧ keywordsFit (besideText gs w) := by
          split
          · exact ⟨_, _, rfl, rfl, keywordsFit_append (by decide) hfit⟩
          · exact ⟨fs, u, rfl, hu, hfs'⟩
        simp only [hgs, Doc.field, hw, Option.elim, spread]
        exact ⟨_, rfl, formed_choices hfit (hlast hgs')⟩

theorem scatterSchema_wellFormed (h : ∀ e ∈ es, Formed e.2) :
    ∃ fs, scatterSchema es = .ok fs ∧ ∀ f ∈ fs, isWellFormed f.2 := by
  rw [scatterSchema]
  split
  · exact ⟨[], rfl, nofun⟩
  · rename_i hne
    obtain ⟨consts, hconsts, hfit⟩ := Result.exists_mapM (P := fun s => isWellFormed s)
      (f := fun e : Doc × Doc => do return Doc.map (put (← spread e.2) "const" e.1)) fun e he => by
        obtain ⟨fs, hfs, hfit⟩ := h e he
        rw [hfs]
        refine ⟨_, rfl, keywordsFit_put ?_ (by simp [keywordsFit, kindOf, kinds, plainKind])⟩
        exact keywordsFit_iff.mpr fun e he => keywordsFit_iff.mp hfit e (mem_of_mem_remove he)
    have hsome : consts ≠ [] := by
      rintro rfl
      exact hne (by simpa using (Result.length_mapM hconsts).symm)
    rw [hconsts]
    refine ⟨_, rfl, ?_⟩
    simp only [forall_mem_cons]
    refine ⟨?_, by decide, nofun⟩
    simp [Doc.obj, isWellFormed, keywordsFit, kindOf, kinds, (formed_anyOf hsome hfit).isWellFormed]
    decide

/-- A tool with usable inputs has a schema, and the schema is well-formed. -/
theorem step_wellFormed {cwl ins outs : Entries} {name folder : String}
    (hconfigs : ∀ e ∈ configs, Formed e.2) (hcwl : Described cwl)
    (hin : get? cwl "inputs" = some (.map ins)) (hins : ∀ e ∈ ins, Usable e.2)
    (hout : get? cwl "outputs" = some (.map outs))
    (houts : ∀ e ∈ outs, ∃ s, outputSchema e.2 = .ok s)
    (hid : isIdentifierText (folder ++ "/" ++ name ++ ".json")) :
    ∃ s, step configs name (.map cwl) folder = .ok s ∧ isWellFormed s := by
  obtain ⟨props, hprops, hfit⟩ := Result.exists_mapM (P := fun e : Doc × Doc => Formed e.2)
    (f := fun e : Doc × Doc => do return (e.1, ← inputSchema configs name e.1 e.2)) fun e he => by
      obtain ⟨s, hs, hs'⟩ := inputSchema_formed hconfigs (hins e he) name e.1
      exact ⟨_, by rw [hs]; rfl, hs'⟩
  obtain ⟨scatter, hscatter, hscatter'⟩ := scatterSchema_wellFormed hfit
  obtain ⟨ss, hss, -⟩ := Result.exists_mapM (P := fun _ => True) fun e he => by
    simpa using houts e he
  unfold step
  simp only [Doc.field, hin, hout, Option.elim, bind, Except.bind, Doc.entries]
  simp only [bind, Except.bind] at hprops
  rw [hprops]
  simp only [hscatter, hss, Doc.fieldD]
  refine ⟨_, rfl, keywordsFit_append (by decide) ?_⟩
  simp only [keywordsFit, kindOf, kinds, find?, List.contains, elem, String.reduceBEq,
    Option.map_some, Option.getD_some, plainKind,
    hcwl "label" (by simp), hcwl "doc" (by simp), Doc.str?, Option.any_some, hid, Bool.and_true,
    Bool.true_and]
  refine membersWellFormed_iff.mpr ?_
  simp only [forall_mem_append, forall_mem_cons]
  exact ⟨⟨⟨isWellFormed_closed fun e he => (hfit e he).isWellFormed, rfl, forall_mem_nil _⟩,
    hscatter'⟩, rfl, rfl, rfl, rfl, forall_mem_nil _⟩

theorem step_wellFormed_optional :
    ∃ s, step [] "count" (Doc.obj [("inputs", Doc.obj [("n", Doc.obj [("type", .str "int?")])]),
      ("outputs", .map [])]) "tools" = .ok s ∧ isWellFormed s := by
  refine step_wellFormed nofun (by simp [Described, get?, Doc.isStr, Entries.getD]) rfl
    (forall_mem_singleton.mpr ⟨_, .list [.str "null", .str "int"],
    rfl, by simp [Described, get?, Doc.isStr, Entries.getD], rfl, ?_⟩) rfl nofun (by decide)
  exact @Sound.union _ ["null", "integer"] rfl (by decide) (by decide)

end WorkflowInference.Schema
