import WorkflowInference.Authoring.Value
import WorkflowInference.Proofs.Compile.Leaves

/-!
Types of tools that are built and of tools that are read. What is built has its types in canonical
form, by a recursion of its own that agrees with the one for tools that are read. So both are typed
alike, but for an input that is provided: only a name loses its question marks.
-/
namespace WorkflowInference

open Entries Result
open Param hiding canonicalItems canonicalItems_eq

variable {es : Entries} {t u : Doc}

namespace Param

def shortName : Doc → List Char
  | .str s => s.toList.reverse
  | .list [_, t] => '?' :: shortName t
  | .map [_, (_, t)] => ']' :: '[' :: shortName t
  | _ => []

theorem shortName_canonicalName (cs : List Char) : shortName (canonicalName cs) = cs := by
  induction cs using canonicalName.induct with
  | case1 rest ih => simp [canonicalName, Param.optional, shortName, ih]
  | case2 rest ih => simp [canonicalName, arrayOf, Doc.obj, shortName, ih]
  | case3 rest hopt harr => simp [canonicalName_bare hopt harr, shortName]

theorem bare_of_canonical (h : canonical (.str s) = .ok (.str s)) : Bare s := by
  have hs := spelt_canonicalName s.toList.reverse
  rw [Except.ok.inj h] at hs
  cases hs with
  | name h => exact h.resolve_left nofun

/-- A provided input keeps its type when this is spelt out first, unless a question mark stands in a
short name. -/
theorem stripped_alike_iff (hu : canonical t = .ok u) :
    canonical (stripped provided u) = canonical (stripped provided t) ↔
      (provided → ∀ s, t = .str s → '?' ∈ s.toList → Bare s) := by
  obtain rfl | hne := eq_or_ne u t
  · exact iff_of_true rfl fun _ s hs _ => bare_of_canonical (hs ▸ hu)
  cases provided with
  | false =>
    have hsame (d : Doc) : stripped false d = d := by cases d <;> rfl
    simp [hsame, hu, canonical_canonical hu]
  | true =>
    cases Canonical.of_eq_ok hu with
    | name s =>
      have hbare : ¬ Bare s := fun h => hne (canonicalName_of_bare h)
      have hkeep : stripped true (canonicalName s.toList.reverse) =
          canonicalName s.toList.reverse := by
        unfold canonicalName at hne ⊢
        split at hne <;> simp_all [stripped, Param.optional, arrayOf, Doc.obj]
      rw [hkeep, canonical_canonical hu]
      simp only [stripped, if_true, canonical, Except.ok.injEq, Doc.str.injEq, forall_eq', hbare,
        forall_const]
      constructor
      · -- the name can be told from what is spelt out, so it has lost nothing
        intro h hmem
        have hchars := congrArg shortName h
        rw [shortName_canonicalName, shortName_canonicalName, Text.toList_replace_question,
          List.reverse_inj] at hchars
        rw [hchars] at hmem
        simp at hmem
      · intro hmem
        rw [Text.toList_replace_question, List.filter_eq_self.mpr]
        intro c hc
        simpa using fun heq : c = '?' => hmem (heq ▸ hc)
    | array => simp_all [stripped, canonical_canonical hu]
    | _ => exact absurd rfl hne

theorem signature_alike_iff (hu : canonical t = .ok u) (ht : get? es "type" = some u) :
    signature (.map es) provided = signature (.map (put es "type" t)) provided ↔
      (provided → ∀ s, t = .str s → '?' ∈ s.toList → Bare s) := by
  have hmore : remarks (put es "type" t) = remarks es :=
    List.filterMap_congr fun k hk => by rw [get?_put_ne (by rintro rfl; simp at hk)]
  rw [signature_eq ht, signature_eq get?_put_self, hmore, ← stripped_alike_iff hu]
  cases canonical (stripped provided u) <;> cases canonical (stripped provided t) <;>
    simp [bind, Except.bind, pure, Except.pure, Doc.obj]

end Param

theorem Compile.isRequired_alike (hu : canonical t = .ok u) (ht : get? es "type" = some u) :
    isRequired (.map es) = isRequired (.map (put es "type" t)) := by
  have hdef : (Doc.map (put es "type" t)).fieldD "default" .null =
      (Doc.map es).fieldD "default" .null := by
    simp [Doc.fieldD, getD, get?_put]
  have hbuilt : (Doc.map es).field "type" = .ok u := field_eq_ok.mpr ht
  have hread : (Doc.map (put es "type" t)).field "type" = .ok t := field_eq_ok.mpr get?_put_self
  unfold isRequired
  rw [hdef, hbuilt, hread]
  cases Canonical.of_eq_ok hu with
  | name s =>
    unfold canonicalName
    split
    · rename_i hs
      have hlast : s.toList.getLast? = some '?' := by rw [← List.head?_reverse, hs, List.head?_cons]
      have hnull : (Doc.str "null" == .str "null") := by simp
      simp [Param.optional, hlast, hnull, bind, Except.bind]
    · rename_i hs
      have hlast : s.toList.getLast? = some ']' := by rw [← List.head?_reverse, hs, List.head?_cons]
      simp [arrayOf, Doc.obj, hlast, bind, Except.bind]
    · simp
  | _ => rfl

theorem Assembly.splitType_alike (hu : canonical t = .ok u) : splitType u = splitType t := by
  have hnull : u.isNull = t.isNull := by
    cases Canonical.of_eq_ok hu with
    | name s =>
      unfold canonicalName
      split <;> rfl
    | _ => rfl
  rw [splitType, splitType, hnull, hu, canonical_canonical hu]

namespace Authoring

open Assembly Value

theorem canonicalText_eq (s : String) : canonicalText s = canonicalName s.toList.reverse := by
  have hdrop (s : String) (n : Nat) : (Text.dropEnd s n).toList.reverse =
      s.toList.reverse.drop n := by
    rw [Text.dropEnd, String.toList_ofList, List.drop_reverse]
  fun_induction canonicalText s with
  | case1 s h ih =>
    obtain ⟨r, hr⟩ := Text.endsWith_iff.mp h
    rw [ih, hdrop, ← hr]
    simp [canonicalName]
  | case2 s _ h ih =>
    obtain ⟨r, hr⟩ := Text.endsWith_iff.mp h
    rw [ih, hdrop, ← hr]
    simp [canonicalName]
  | case3 s hopt harr =>
    rw [Text.endsWith_iff] at hopt harr
    refine (canonicalName_of_bare fun r => ⟨?_, ?_⟩).symm
    · rintro rfl
      exact hopt ⟨r.toList, by simp⟩
    · rintro rfl
      exact harr ⟨r.toList, by simp⟩

inductive Itemized : Doc → Prop
  | null : Itemized .null
  | bool (b : Bool) : Itemized (.bool b)
  | int (n : Int) : Itemized (.int n)
  | float (x : Float) : Itemized (.float x)
  | str (s : String) : Itemized (.str s)
  | list {xs : List Doc} (h : ∀ x ∈ xs, Itemized x) : Itemized (.list xs)
  | map {es : Entries} (hkeys : ∀ e ∈ es, e.1.isStr) (hvals : ∀ e ∈ es, Itemized e.2)
      (hitems : get? es "type" = some (.str "array") → has es "items") : Itemized (.map es)

theorem writtenEntries_eq (es : Entries) :
    writtenEntries es = es.map fun e => (e.1, written e.2) := by
  induction es with
  | nil => rfl
  | cons e es ih => rw [writtenEntries, ih, List.map]

theorem written_of_itemized (h : Itemized t) : written t = t := by
  induction h with
  | list _ ih => rw [written, writtenAll_eq, List.map_congr_left ih, List.map_id']
  | @map es _ _ _ ih =>
    have hsame : ∀ e ∈ es, (e.1, written e.2) = id e := fun e he => Prod.ext rfl (ih e he)
    rw [written, writtenEntries_eq, List.map_congr_left hsame, List.map_id]
  | _ => rfl

theorem canonicalItems_eq (hi : get? es "items" = some t) :
    canonicalItems es = put (writtenEntries es) "items" (canonicalType t) := by
  induction es with
  | nil => cases hi
  | cons e es ih =>
    obtain ⟨k, v⟩ := e
    rw [canonicalItems, writtenEntries]
    by_cases hk : k = .str "items"
    · subst hk
      cases Option.some.inj ((if_pos rfl).symm.trans hi)
      simp [put]
    · rw [get?_cons_ne hk] at hi
      rw [if_neg (by simpa using hk), put_cons_ne hk, ih hi]

theorem canonical_eq_canonicalType (h : Itemized t) : canonical t = .ok (canonicalType t) := by
  have hw := written_of_itemized h
  induction h with
  | str s => rw [canonicalType, canonicalText_eq, canonical]
  | list =>
    rw [written] at hw
    rw [canonicalType, hw, canonical] <;> simp
  | @map es _ hvals hitems ih =>
    rw [written, Doc.map.injEq] at hw
    rw [canonicalType, hw]
    by_cases ht : get? es "type" = some (.str "array")
    · obtain ⟨u, hu⟩ := Option.isSome_iff_exists.mp (hitems ht)
      have hmem := mem_of_get? hu
      rw [canonical_array ht hu, ih _ hmem (written_of_itemized (hvals _ hmem)),
        canonicalItems_eq hu, hw]
      simp [getD, ht, Except.map]
    · have hother : (getD es "type" .null == .str "array") = false := by
        rw [beq_str_eq_false, getD]
        cases hget : get? es "type" <;> simp_all
      rw [canonical_other ht, hother]
      rfl
  | _ => rfl

mutual

theorem render_ofDoc : ∀ d, (ofDoc d).render = .ok (written d)
  | .list xs | .tuple xs => by
    rw [ofDoc, render, renderAll_ofItems xs, written]
    rfl
  | .map es => by
    rw [ofDoc, render, renderEntries_ofEntries es, written]
    rfl
  | .path _ | .null | .bool _ | .int _ | .float _ | .str _ | .bytes _ | .date _ | .qual .. | .set _
  | .object .. => rfl

theorem renderAll_ofItems : ∀ xs, renderAll (ofItems xs) = .ok (writtenAll xs)
  | [] => rfl
  | x :: xs => by
    rw [ofItems, renderAll, render_ofDoc x, renderAll_ofItems xs]
    rfl

theorem renderEntries_ofEntries : ∀ es, renderEntries (ofEntries es) = .ok (writtenEntries es)
  | [] => rfl
  | (k, v) :: es => by
    rw [ofEntries, renderEntries, render_ofDoc v, renderEntries_ofEntries es]
    rfl

end

theorem lookup_renderFacets (fs : Named) (n : String) :
    (renderFacets fs).lookup n = (fs.lookup n).map fun v => ⟨v, v.render⟩ := by
  induction fs with
  | nil => rfl
  | cons f fs ih =>
    obtain ⟨m, v⟩ := f
    rw [renderFacets, List.lookup_cons, List.lookup_cons]
    cases n == m with
    | true => rfl
    | false => exact ih

theorem key_of_pick {fs : Facets} {names : List String} (h : fs.pick names = .ok es) (he : e ∈ es) :
    ∃ n ∈ names, e.1 = Facets.keyOf n := by
  obtain ⟨os, hos, rfl⟩ := of_map h
  obtain ⟨_, ho, rfl⟩ := List.mem_filterMap.mp he
  obtain ⟨n, hn, hpick⟩ := mem_of_mapM hos ho
  refine ⟨n, hn, ?_⟩
  split at hpick
  · cases hpick
  · split at hpick
    · cases hpick
    · split at hpick
      · cases hpick
        rfl
      · obtain ⟨d, -, hd⟩ := of_map hpick
        cases hd
        rfl

theorem type_of_render {k : SpecKind} {fs : Named} (hk : k ≠ .field)
    (hreq : ∀ v, fs.lookup "required" = some v → v.truthy)
    (hextra : ∀ v d, fs.lookup "extra" = some v → v.render = .ok d → has d.fields "type" = false)
    (h : (spec k (("type", ofDoc t) :: fs)).render = .ok (.map es)) :
    get? es "type" = some (canonicalType (written t)) := by
  have hfacet (n : String) (hn : n ≠ "type") : (renderFacets (("type", ofDoc t) :: fs)).lookup n =
      (fs.lookup n).map fun v => ⟨v, v.render⟩ := by
    rw [lookup_renderFacets, List.lookup_cons, beq_false_of_ne hn]
  have hown : ∀ own, Facets.own k (renderFacets (("type", ofDoc t) :: fs)) = .ok own →
      get? own "type" = some (canonicalType (written t)) := by
    intro own hown
    have hrequired : ((fs.lookup "required").map fun v => (⟨v, v.render⟩ : Facet)).elim true
        (·.value.truthy) = true := by
      cases hv : fs.lookup "required" with
      | none => rfl
      | some v => exact hreq v hv
    have htype : (renderFacets (("type", ofDoc t) :: fs)).rendered "type" = .ok (written t) :=
      render_ofDoc t
    unfold Facets.own at hown
    rw [hfacet _ (by decide), hrequired, htype] at hown
    split at hown
    · contradiction
    · obtain ⟨_, ⟨⟩, _, -, _, -, h⟩ := of_bind₃ hown
      cases h
      rfl
  rw [render] at h
  obtain ⟨own, hown', shown, hshown, h⟩ := of_bind₂ h
  obtain ⟨extra, hmore, h⟩ := of_map h
  cases h
  have hkeys : ∀ e ∈ shown, e.1 ≠ .str "type" := by
    have hnames : ∀ n ∈ k.facets, (if n = "flag" then "prefix" else Text.camelCase n) ≠ "type" := by
      cases k <;> decide
    intro e he heq
    obtain ⟨n, hn, hkey⟩ := key_of_pick hshown he
    exact hnames n hn (Doc.str.inj (hkey.symm.trans heq))
  have hnone : ∀ e ∈ extra, e.1 ≠ .str "type" := by
    obtain ⟨d, hd, rfl⟩ := of_map hmore
    rw [Facets.rendered, hfacet _ (by decide)] at hd
    cases hv : fs.lookup "extra" with
    | none =>
      rw [hv] at hd
      cases hd
      exact nofun
    | some v =>
      rw [hv] at hd
      intro e he heq
      have hhas : has d.fields "type" := has_iff_mem.mpr (heq ▸ List.mem_map_of_mem he)
      rw [hextra v d hv hd] at hhas
      cases hhas
  rw [get?_update_ne hnone, get?_update_ne hkeys, hown own hown']

/-- A JSON type has one canonical form by either recursion. A parameter that is built from it and
one that is read with it are typed alike: as a slot, in whether it must be given and in the
signature that is copied; in that of an input which is provided just when no question mark stands in
a short name. -/
theorem built_types_agree (ht : Itemized t) :
    canonical t = .ok (canonicalType t) ∧ ∀ (k : SpecKind) (fs : Named) (es : Entries), k ≠ .field →
      (∀ v, fs.lookup "required" = some v → v.truthy) →
      (∀ v d, fs.lookup "extra" = some v → v.render = .ok d → has d.fields "type" = false) →
      (spec k (("type", ofDoc t) :: fs)).render = .ok (.map es) →
      get? es "type" = some (canonicalType t) ∧ splitType (canonicalType t) = splitType t ∧
      Compile.isRequired (.map es) = Compile.isRequired (.map (put es "type" t)) ∧
      ∀ provided, signature (.map es) provided = signature (.map (put es "type" t)) provided ↔
      (provided → ∀ s, t = .str s → '?' ∈ s.toList → Bare s) := by
  have hu := canonical_eq_canonicalType ht
  refine ⟨hu, fun k fs es hk hreq hextra h => ?_⟩
  have htype := type_of_render hk hreq hextra h
  rw [written_of_itemized ht] at htype
  exact ⟨htype, splitType_alike hu, Compile.isRequired_alike hu htype, fun _ =>
    signature_alike_iff hu htype⟩

theorem built_types_agree_optional :
    ∃ es : Entries,
      (spec .input [("type", ofDoc (.str "File[]?")), ("position", plain (.int 1))]).render =
      .ok (.map es) ∧ get? es "type" = some (Param.optional (arrayOf (.str "File"))) ∧
      signature (.map es) false = signature (.map (put es "type" (.str "File[]?"))) false ∧
      signature (.map es) true ≠ signature (.map (put es "type" (.str "File[]?"))) true := by
  have hagree := built_types_agree (.str "File[]?")
  have hform : canonicalType (.str "File[]?") = Param.optional (arrayOf (.str "File")) :=
    (Except.ok.inj hagree.1).symm
  have hbuilt := hagree.2 .input [("position", plain (.int 1))] _ nofun nofun nofun rfl
  refine ⟨_, rfl, hform ▸ hbuilt.1, (hbuilt.2.2.2 false).mpr nofun, fun h => ?_⟩
  exact ((hbuilt.2.2.2 true).mp h rfl _ rfl (by decide) "File[]").1 rfl

end Authoring

end WorkflowInference
