import WorkflowInference.Proofs.Compile.Sources
import WorkflowInference.Proofs.Types

/-!
Which output an inferred input takes, and what the edge can be relied on for. It is the most recent
output that fits, and where there is none the workflow gets a new input. The output that is taken
has a type in common with the input, and its format is the one that is asked for, or one of them,
unless the comparison says nothing: both may be absent, no format is declared, or the format is a
part of the name of another. Where no output fits, the tools that are put in turn a format of an
output that was looked at into one that the input takes.
-/
namespace WorkflowInference.Compile

open Entries Result List
open Param (alternatives)

def nullType : Doc := .str "null"

/-- Two types, or two types with an alternative in common that says more than that there may be
nothing. -/
def SharesType (s t : Doc) : Prop :=
  (s == t) ∨ ∃ a ∈ alternatives s, ∃ b ∈ alternatives t, (a == b || b == a) ∧ a ≠ nullType

structure Sound (w : Wanted) (type : Doc) (format : Option Doc) : Prop where
  type : SharesType w.type type
  format : w.formats.truthy → (∀ f, w.formats = .str f → format = some (.str f)) ∧
    ∀ fs, w.formats = .list fs → ∃ f, format = some f ∧ fs.any (· == f)

/-- An output whose comparison with an input says something: not both may be absent, and where a
format is asked for, one is declared that is not a proper part of it. -/
structure Telling (w : Wanted) (type : Doc) (format : Option Doc) : Prop where
  type : ¬ (nullType ∈ alternatives w.type ∧ nullType ∈ alternatives type)
  format : w.formats.truthy → ∃ f, format = some (.str f) ∧
    ∀ g, w.formats = .str g → (Doc.str g).holds f = .ok true → f = g

variable {t s : Doc}

theorem mem_alternatives (h : ∀ ts, t ≠ .list ts) : t ∈ alternatives t := by
  cases t with
  | list ts => exact absurd rfl (h ts)
  | _ => exact mem_singleton_self _

theorem accepts_alternatives (h : Param.accepts s t) :
    (s == t) ∨ ∃ a ∈ alternatives s, ∃ b ∈ alternatives t, (a == b || b == a) := by
  unfold Param.accepts at h
  split at h
  · rename_i heq
    exact .inl heq
  right
  split at h
  · obtain ⟨b, hb, h⟩ := any_eq_true.mp h
    obtain ⟨a, ha, heq⟩ := any_eq_true.mp h
    exact ⟨a, ha, b, hb, by rw [heq, Bool.true_or]⟩
  · rename_i hlist
    obtain ⟨a, ha, heq⟩ := any_eq_true.mp h
    exact ⟨a, ha, t, mem_alternatives hlist, by rw [heq, Bool.true_or]⟩
  · rename_i hlist _
    obtain ⟨b, hb, heq⟩ := any_eq_true.mp h
    exact ⟨s, mem_alternatives hlist, b, hb, by rw [heq, Bool.or_true]⟩
  · cases h

theorem eq_nullType (h : (a == b || b == a)) (ha : a = nullType) : b = nullType := by
  subst ha
  rcases Bool.or_eq_true_iff.mp h with h | h
  · exact Doc.str_eq_iff.mp h
  · exact Doc.beq_str_iff.mp h

theorem Wanted.fits_sound {w : Wanted} {type : Doc} {format : Option Doc}
    (htell : Telling w type format) (h : w.fits type (format.getD (.str "")) = .ok true) :
    Sound w type format := by
  unfold Wanted.fits at h
  split at h
  swap
  · cases h
  rename_i haccepts
  constructor
  · rcases accepts_alternatives haccepts with heq | ⟨a, ha, b, hb, heq⟩
    · exact .inl heq
    · refine .inr ⟨a, ha, b, hb, heq, fun hnull => htell.type ⟨hnull ▸ ha, ?_⟩⟩
      rw [← eq_nullType heq hnull]
      exact hb
  · intro htruthy
    obtain ⟨f, rfl, hwhole⟩ := htell.format htruthy
    rw [if_pos htruthy, Option.getD_some] at h
    constructor
    · intro g hg
      rw [hg] at h
      split at h
      · rename_i heq
        rw [Doc.beq_str_iff.mp heq]
      · rw [hwhole g hg h]
    · intro fs hfs
      rw [hfs, if_neg (by simp [BEq.beq, Doc.eq])] at h
      exact ⟨_, rfl, Except.ok.inj h⟩

theorem addIn_binds (h : Workflow.addIn step key [(.str arg, v)] = .ok s) :
    get? (bindings s) arg = some v := by
  unfold Workflow.addIn at h
  split at h
  · cases h
    simp [bindings, Doc.obj, Doc.map?, get?]
  · split at h
    · cases h
      simp [bindings, Doc.map?, update, write_str]
    · cases h
    · cases h
      simp [bindings, Doc.map?, get?]
  · split at h
    · cases h
    · cases h
      simp [bindings, Doc.obj, Doc.map?, get?]

section Edge

variable {c : Scope} {i : Nat} {tool : Tool} {arg name : String} {d : Draft}

def inferredSource (c : Scope) (i : Nat) (arg : String) : Option (Nat × String) → String
  | some (j, out) => stepName c.stem j (c.keys.getD j "") ++ "/" ++ out
  | none => stepName c.stem i (c.keys.getD i "") ++ Namespaces.sep ++ arg

theorem infer_spec (h : (infer c i tool arg name d).Yields r) :
    ∃ sig w found seen step, wantedOf (d.step i) tool.cwl arg = .ok (sig, w) ∧
      searchSteps c d w arg i = .ok (found, seen) ∧
      Workflow.addIn (d.step i) (c.keys.getD i "")
      [(.str arg, .str (inferredSource c i arg found))] = .ok step ∧
      r.1.steps = d.steps.set i step ∧
      r.1.inputs = if found.isSome then d.inputs
      else put d.inputs (inferredSource c i arg none) (.map sig) := by
  obtain ⟨sig, w, found, seen, hwanted, hfound, ⟨j, out, rfl, he⟩ | ⟨rfl, he, -⟩⟩ := infer_cases h
  · obtain ⟨cls, -, step, hstep, he⟩ := of_bind₂ he
    have hcore := (drawInferred_draws he).core
    exact ⟨sig, w, _, seen, step, hwanted, hfound, hstep, Draft.steps_of_core hcore,
      (Draft.inputs_of_core hcore :)⟩
  · obtain ⟨step, hstep, he⟩ := of_map he
    rw [← he]
    exact ⟨sig, w, _, seen, step, hwanted, hfound, hstep, rfl, rfl⟩

theorem Draft.step_of_set {e : Draft} {step : Doc} (hi : i < d.steps.length)
    (h : e.steps = d.steps.set i step) : e.step i = step := by
  rw [Draft.step, h, getD_of_getElem? (getElem?_set_self hi)]

theorem inferredSource_inj (hj : j < i)
    (h : inferredSource c i arg found = stepName c.stem j (c.keys.getD j "") ++ "/" ++ out) :
    found = some (j, out) := by
  cases found with
  | none =>
    simp only [inferredSource, String.append_assoc] at h
    have := (stepName_append_inj h).1
    omega
  | some p =>
    obtain ⟨k, o⟩ := p
    simp only [inferredSource, String.append_assoc] at h
    obtain ⟨rfl, h⟩ := stepName_append_inj h
    rw [← String.append_assoc, ← String.append_assoc] at h
    rw [String.append_right_inj _ |>.mp h]

/-- Where an input of a step takes an output of an earlier one by inference, they agree in type and
format. -/
theorem infer_sound {j : Nat} {out : String} {e : Draft} {ids : List StepId}
    (h : (infer c i tool arg name d).Yields (e, ids)) (hj : j < i)
    (hbound : Entries.get? (bindings (e.step i)) arg =
      some (.str (stepName c.stem j (c.keys.getD j "") ++ "/" ++ out))) :
    ∃ sig w type format, wantedOf (d.step i) tool.cwl arg = .ok (sig, w) ∧
      OutputAt d j out type format ∧
      (Telling w type format → Sound w type format) := by
  obtain ⟨sig, w, found, seen, step, hwanted, hsearch, hadd, hsteps, -⟩ := infer_spec h
  have hlt : i < d.steps.length := by
    by_contra hge
    rw [Draft.step, hsteps, List.set_eq_of_length_le (by omega), List.getD_eq_getElem?_getD,
      List.getElem?_eq_none (by omega)] at hbound
    cases hbound
  rw [Draft.step_of_set hlt hsteps, addIn_binds hadd, Option.some_inj, Doc.str.injEq] at hbound
  obtain ⟨-, type, format, hout, hfits⟩ := searchSteps_found hsearch (inferredSource_inj hj hbound)
  exact ⟨sig, w, type, format, hwanted, hout, fun htell => Wanted.fits_sound htell hfits⟩

end Edge

namespace Sample

def sinkTool (input : Doc) : Tool := (tool "use" [("f", input)] []).2

def twoScope : Scope :=
  ⟨setting [], .root "wf.wic" (workflow []) (Graph.empty "" ""), "wf", ["make", "use"]⟩

def twoSteps (out : Doc) : Draft :=
  { tree := [], steps := [step "make" [],
    step "use" []], notes := .map [], inputMapping := [], outputMapping := []
    edgeDefs := [], edgeCalls := [], graphs := [Graph.empty "" ""], tools :=
      [(tool "make" [] [("o", out)]).2] }

def inferred (out input : Doc) : Option (Draft × List StepId) :=
  ((infer twoScope 1 (sinkTool input) "f" "wf__step__2__use___f" (twoSteps out)).outcome
    {}).1.toOption

def formatted (format : String) : Doc := Doc.obj [("type", .str "File"), ("format", .str format)]

theorem outputAt_twoSteps {out type : Doc} {format : Option Doc}
    (h : OutputAt (twoSteps out) 0 "o" type format) :
    format = under? out "format" ∧ offeredType false out = .ok type := by
  generalize hd : twoSteps out = d at h
  obtain ⟨htool, houts, hmem, hscatter, htype⟩ := h
  subst hd
  cases htool
  cases houts
  cases hscatter
  cases mem_singleton.mp hmem
  exact ⟨rfl, htype⟩

end Sample

open Sample in
theorem infer_sound_formatted :
    ∃ e ids, (infer twoScope 1 (sinkTool (formatted "edam:format_2330")) "f" "wf__step__2__use___f"
      (twoSteps (formatted "edam:format_2330"))).Yields (e, ids) ∧
      Entries.get? (bindings (e.step 1)) "f" = some (.str "wf__step__1__make/o") ∧
      ∃ sig w type, wantedOf (step "use" []) (sinkTool (formatted "edam:format_2330")).cwl "f" =
      .ok (sig, w) ∧ Sound w type (some (.str "edam:format_2330")) := by
  have hsome :
    (inferred (formatted "edam:format_2330") (formatted "edam:format_2330")).any (fun r =>
      (Entries.get? (bindings (r.1.step 1)) "f").any (· == .str "wf__step__1__make/o")) = true := by
    decide +kernel
  obtain ⟨⟨e, ids⟩, hr, hbound⟩ := Logged.yields_of_any hsome
  obtain ⟨v, hv, heq⟩ := Option.any_eq_true _ _ |>.mp hbound
  rw [Doc.beq_str_iff.mp heq] at hv
  obtain ⟨sig, w, type, format, hwanted, hout, hsound⟩ := infer_sound hr (show 0 < 1 by decide)
    (show _ = some (Doc.str (stepName "wf" ((0 : Nat) : Int) "make" ++ "/" ++ "o")) from hv)
  obtain ⟨rfl, htype⟩ := outputAt_twoSteps hout
  refine ⟨e, ids, hr, hv, sig, w, type, hwanted, hsound ?_⟩
  have hfile : type = .str "File" := (Except.ok.inj htype).symm
  cases hwanted
  refine ⟨fun hnull => ?_, fun _ => ⟨_, rfl, by rintro _ ⟨⟩ -; rfl⟩⟩
  rw [hfile] at hnull
  exact absurd (Doc.str.inj (List.mem_singleton.mp hnull.2)) (by decide)

/-- An inferred input takes the most recent output that fits it, or becomes an input of the
workflow. -/
theorem infer_most_recent {c : Scope} {i : Nat} {tool : Tool} {arg name : String} {d e : Draft}
    {ids : List StepId} (hnames : c.setting.options.namingConventions = false)
    (h : (infer c i tool arg name d).Yields (e, ids)) :
    ∃ sig w, wantedOf (d.step i) tool.cwl arg = .ok (sig, w) ∧
      (∀ j out, mostRecent c d w i = some (j, out) → e.inputs = d.inputs ∧
        Entries.get? (bindings (e.step i)) arg =
        some (.str (stepName c.stem j (c.keys.getD j "") ++ "/" ++ out))) ∧
      (mostRecent c d w i = none → ∃ new, new = stepName c.stem i (c.keys.getD i "") ++
          Namespaces.sep ++ arg ∧
        e.inputs = Entries.put d.inputs new (.map sig) ∧
        Entries.get? (bindings (e.step i)) arg = some (.str new)) := by
  obtain ⟨sig, w, found, seen, step, hwanted, hsearch, hadd, hsteps, hinputs⟩ := infer_spec h
  have hfound : found = mostRecent c d w i := searchSteps_mostRecent hnames hsearch
  have hi : i < d.steps.length := by
    obtain ⟨ins, -, param, -, own, -, hstep⟩ := Result.of_bind₃ hwanted
    obtain ⟨scatter, hscatter, -⟩ := Result.of_bind hstep
    obtain ⟨es, hes⟩ := fieldD_map hscatter
    exact Draft.lt_length_of_step hes
  have hbound : Entries.get? (bindings (e.step i)) arg =
      some (.str (inferredSource c i arg found)) := by
    rw [Draft.step_of_set hi hsteps, addIn_binds hadd]
  rw [hfound] at hinputs hbound
  refine ⟨sig, w, hwanted, fun j out hrecent => ?_, fun hnone => ⟨_, rfl, ?_⟩⟩
  · rw [hrecent] at hinputs hbound
    exact ⟨hinputs, hbound⟩
  · rw [hnone] at hinputs hbound
    exact ⟨hinputs, hbound⟩

namespace Sample

def endingSteps : Draft :=
  { twoSteps file with
    steps := ["make", "part", "use"].map (step · [])
    notes := Doc.obj
      [("(2, part)", Doc.obj [("wic", Doc.obj [("inference", Doc.obj [("b___y", .str "break")])])])]
    tools := [(tool "make" [] [("o", file)]).2,
      (tool "part" [] [("a___w", file), ("b___x", file), ("b___y", text),
        ("b___z_log_", file)]).2] }

def endingScope : Scope := { twoScope with keys := ["make", "part", "use"] }

end Sample

open Sample in
theorem infer_most_recent_ending :
    ∃ e ids, (infer endingScope 2 (sinkTool file) "f" "wf__step__3__use___f" endingSteps).Yields
      (e, ids) ∧ e.inputs = [] ∧
      Entries.get? (bindings (e.step 2)) "f" = some (.str "wf__step__2__part/b___x") := by
  have hsome : (((infer endingScope 2 (sinkTool file) "f" "wf__step__3__use___f"
      endingSteps).outcome {}).1.toOption).isSome = true := by decide +kernel
  obtain ⟨⟨e, ids⟩, hr⟩ := Logged.yields_of_isSome hsome
  obtain ⟨sig, w, hwanted, hfound, -⟩ := infer_most_recent rfl hr
  cases hwanted
  exact ⟨e, ids, hr, hfound 1 "b___x" (by decide +kernel)⟩

def formatNames : Doc → List String
  | .str f => [f]
  | .list fs => fs.filterMap Doc.str?
  | _ => []

def declaredFormats (params : Doc) : List Doc :=
  (params.map?.getD []).filterMap fun e => under? e.2 "format"

structure Converts (t : Tool) (source target : String) : Prop where
  takes : ∃ ins, under? t.cwl "inputs" = some ins ∧
    ∃ f ∈ declaredFormats ins, source ∈ formatNames f
  gives : ∃ outs, under? t.cwl "outputs" = some outs ∧
    ∃ f ∈ declaredFormats outs, target ∈ formatNames f

def ListsFormats (d : Doc) : Prop := ∃ fs : List String, d = .list (fs.map .str)

def OneFormat (d : Doc) : Prop := ∃ f, d = .str f

structure Spelt (t : Tool) : Prop where
  inputs : ∀ ins, under? t.cwl "inputs" = some ins → ∀ f ∈ declaredFormats ins, ListsFormats f
  outputs : ∀ outs, under? t.cwl "outputs" = some outs → ∀ f ∈ declaredFormats outs, OneFormat f

variable {ds : List Doc}

theorem formatNames_listed (fs : List String) : formatNames (.list (fs.map .str)) = fs := by
  simp [formatNames, filterMap_map, Function.comp_def, Doc.str?]

theorem formatsOf_eq_ok (h : formatsOf params = .ok fs) : fs = declaredFormats params := by
  obtain ⟨es, hes, h⟩ := of_bind h
  rw [entries_eq_ok] at hes
  subst hes
  obtain ⟨os, hos, rfl⟩ := filterMapM_eq_ok h
  have hread : ∀ e : Doc × Doc, ∀ o,
      (do if ← e.2.holds "format" then return some (← e.2.field "format") else return none) =
      Except.ok o → o = under? e.2 "format" := by
    intro e o ho
    obtain ⟨has, hhas, ho⟩ := of_bind ho
    split at ho
    · obtain ⟨f, hf, rfl⟩ := of_map ho
      rw [field_eq_ok.mp hf]
    · rename_i hnot
      rw [← pure_eq_ok.mp ho]
      cases hd : e.2 with
      | map fs =>
        rw [hd] at hhas
        have hnone := holds_map hhas
        rw [Bool.eq_false_iff.mpr hnot] at hnone
        exact (Option.not_isSome_iff_eq_none.mp (by simp [hnone])).symm
      | _ => rfl
  have heach : os = es.map fun e => under? e.2 "format" := by
    rw [← forall₂_eq_eq_eq, forall₂_map_right_iff]
    exact ((mapM_eq_ok hos).imp hread).flip
  rw [heach, filterMap_map]
  rfl

theorem any_single (hds : ∀ d ∈ ds, OneFormat d) (f : String) :
    ds.any (· == .str f) ↔ ∃ d ∈ ds, f ∈ formatNames d := by
  rw [any_eq_true]
  refine exists_congr fun d => and_congr_right fun hd => ?_
  obtain ⟨f', rfl⟩ := hds d hd
  rw [Doc.beq_str_iff, Doc.str.injEq, formatNames, mem_singleton, eq_comm]

theorem any_listed (hds : ∀ d ∈ ds, ListsFormats d) (hms : ds.mapM Doc.members = .ok ms)
    (f : String) : ms.flatten.any (· == .str f) ↔ ∃ d ∈ ds, f ∈ formatNames d := by
  have hsame : ms.flatten = ds.flatMap fun d => (formatNames d).map .str := by
    rw [flatMap_def]
    congr 1
    have hread := mapM_eq_ok hms
    clear hms
    induction hread with
    | nil => rfl
    | @cons d m ds ms hm _ ih =>
      obtain ⟨fs, rfl⟩ := hds d mem_cons_self
      cases hm
      rw [map_cons, formatNames_listed, ih fun d hd => hds d (mem_cons_of_mem _ hd)]
  rw [hsame, any_eq_true]
  simp

theorem candidate_eq_ok {t : StepId × Tool}
    (hspelt : Text.startsWith t.1.stem insertionStem → Spelt t.2)
    (h : candidate (.str f) (.str g) t = .ok o) (id : StepId) :
    o = some id ↔ t.1 = id ∧ Text.startsWith id.stem insertionStem ∧ Converts t.2 g f := by
  unfold candidate at h
  split at h
  · rename_i hstem
    obtain ⟨ins, hins, ifs, hifs, ms, hms, h⟩ := of_bind₃ h
    obtain ⟨outs, houts, ofs, hofs, h⟩ := of_bind₂ h
    rw [field_eq_ok] at hins houts
    have hs := hspelt hstem
    rw [formatsOf_eq_ok hifs] at hms
    rw [formatsOf_eq_ok hofs] at h
    have hconv : (declaredFormats outs).any (· == .str f) ∧ ms.flatten.any (· == .str g) ↔
        Converts t.2 g f := by
      rw [any_single (hs.outputs outs houts), any_listed (hs.inputs ins hins) hms]
      constructor
      · rintro ⟨hgives, htakes⟩
        exact ⟨⟨ins, hins, htakes⟩, ⟨outs, houts, hgives⟩⟩
      · rintro ⟨⟨_, hins', htakes⟩, ⟨_, houts', hgives⟩⟩
        cases hins.symm.trans hins'
        cases houts.symm.trans houts'
        exact ⟨hgives, htakes⟩
    rw [← Bool.and_eq_true] at hconv
    split at h
    · rename_i hboth
      rw [← pure_eq_ok.mp h, Option.some_inj]
      constructor
      · rintro rfl
        exact ⟨rfl, hstem, hconv.mp hboth⟩
      · exact fun h => h.1
    · rename_i hnot
      rw [← pure_eq_ok.mp h]
      exact ⟨fun hsome => (nomatch hsome), fun hall => absurd (hconv.mpr hall.2.2) hnot⟩
  · rename_i hstem
    rw [← pure_eq_ok.mp h]
    refine ⟨fun hsome => (nomatch hsome), ?_⟩
    rintro ⟨rfl, hyes, -⟩
    exact absurd hyes hstem

theorem mem_insertions {tools : Registry} {fs : List String} {seen : List Doc} {ids : List StepId}
    (hseen : ∀ o ∈ seen, OneFormat o)
    (hspelt : ∀ t ∈ tools, Text.startsWith t.1.stem insertionStem → Spelt t.2)
    (h : insertions tools (.list (fs.map .str)) seen = .ok ids) (id : StepId) :
    id ∈ ids ↔ ∃ t, (id, t) ∈ tools ∧ Text.startsWith id.stem insertionStem ∧
      ∃ f ∈ fs, ∃ o ∈ seen, ∃ g ∈ formatNames o, f ≠ g ∧ Converts t g f := by
  obtain ⟨_, hwanted, h⟩ := of_bind h
  cases hwanted
  obtain ⟨found, hfound, rfl⟩ := of_map h
  rw [mem_flatten]
  have hdiffer : ∀ f g : String, (!(Doc.str f == Doc.str g)) ↔ f ≠ g := by
    intro f g
    rw [Bool.not_eq_true', Bool.eq_false_iff, Ne, Doc.beq_str_iff, Doc.str.injEq]
  constructor
  · rintro ⟨l, hl, hid⟩
    obtain ⟨⟨a, b⟩, hpair, hl⟩ := mem_of_mapM hfound hl
    obtain ⟨a', ha, hb⟩ := mem_flatMap.mp hpair
    obtain ⟨b', hb, ⟨⟩⟩ := mem_map.mp hb
    obtain ⟨f, hf, rfl⟩ := mem_map.mp ha
    obtain ⟨hb, hne⟩ := mem_filter.mp hb
    obtain ⟨g, rfl⟩ := hseen _ hb
    obtain ⟨t, ht, hcand⟩ := (mem_filterMapM hl id).mp hid
    obtain ⟨rfl, hstem, hconv⟩ := (candidate_eq_ok (hspelt t ht) hcand id).mp rfl
    exact ⟨t.2, ht, hstem, f, hf, _, hb, g, mem_singleton_self g, (hdiffer f g).mp hne, hconv⟩
  · rintro ⟨t, ht, hstem, f, hf, o, hg, g, hname, hne, hconv⟩
    obtain ⟨_, rfl⟩ := hseen o hg
    obtain rfl := mem_singleton.mp hname
    have hpair : (Doc.str f, Doc.str g) ∈ (fs.map Doc.str).flatMap fun a =>
        (seen.filter fun b => !(a == b)).map fun b => (a, b) := by
      exact mem_flatMap.mpr ⟨_, mem_map_of_mem hf,
        mem_map_of_mem (mem_filter.mpr ⟨hg, (hdiffer f g).mpr hne⟩)⟩
    obtain ⟨l, hl, hall⟩ := mem_mapM hfound hpair
    obtain ⟨os, hos, rfl⟩ := filterMapM_eq_ok hall
    obtain ⟨o, ho, hcand⟩ := mem_mapM hos ht
    refine ⟨_, hl, mem_filterMap.mpr ⟨o, ho, ?_⟩⟩
    exact (candidate_eq_ok (hspelt _ ht) hcand id).mpr ⟨rfl, hstem, hconv⟩

/-- Where no output fits, the tools that may be put in are those that turn a format of an output
that was looked at into one that the input takes. -/
theorem infer_candidates {c : Scope} {i : Nat} {tool : Tool} {arg name : String} {d e : Draft}
    {ids : List StepId} {sig : Entries} {w : Wanted} {seen : List (List Candidate)}
    (hwanted : wantedOf (d.step i) tool.cwl arg = .ok (sig, w))
    (hsearch : searchSteps c d w arg i = .ok (none, seen)) (hformats : ListsFormats w.formats)
    (hseen : ∀ o ∈ seen.flatten, OneFormat o.2)
    (hspelt : ∀ t ∈ c.setting.tools, Text.startsWith t.1.stem insertionStem = true → Spelt t.2)
    (h : (infer c i tool arg name d).Yields (e, ids)) (id : StepId) :
    id ∈ ids ↔ ∃ t, (id, t) ∈ c.setting.tools ∧ Text.startsWith id.stem insertionStem = true ∧
      ∃ f ∈ formatNames w.formats, ∃ o ∈ seen.flatten, ∃ g ∈ formatNames o.2, f ≠ g ∧
      Converts t g f := by
  obtain ⟨_, _, _, _, hwanted', hsearch', hcase⟩ := infer_cases h
  cases hwanted.symm.trans hwanted'
  cases hsearch.symm.trans hsearch'
  obtain ⟨_, _, ⟨⟩, -⟩ | ⟨-, -, hids⟩ := hcase
  obtain ⟨fs, hfs⟩ := hformats
  rw [hfs] at hids
  rw [mem_insertions (List.forall_mem_map.mpr hseen) hspelt hids, hfs, formatNames_listed]
  simp only [List.mem_map, exists_exists_and_eq_and]

namespace Sample

def taking (formats : List String) : Doc :=
  Doc.obj [("type", .str "File"), ("format", .list (formats.map .str))]

def converter (source target : String) : StepId × Tool :=
  tool "insert_steps_automatically_convert" [("i", taking [source])] [("o", formatted target)]

def convertingScope : Scope := { twoScope with setting := setting [converter "pdb" "gro"] }

end Sample

open Sample in
theorem infer_candidates_converter :
    ∃ e ids, (infer convertingScope 1 (sinkTool (taking ["top", "gro"])) "f" "wf__step__2__use___f"
      (twoSteps (formatted "pdb"))).Yields (e, ids) ∧ (converter "pdb" "gro").1 ∈ ids := by
  have hsome : (((infer convertingScope 1 (sinkTool (taking ["top", "gro"]))
      "f" "wf__step__2__use___f" (twoSteps (formatted "pdb"))).outcome {}).1.toOption).isSome =
      true := by decide +kernel
  obtain ⟨⟨e, ids⟩, hr⟩ := Logged.yields_of_isSome hsome
  have hlook : searchSteps convertingScope (twoSteps (formatted "pdb"))
      ⟨.str "File", .list [.str "top", .str "gro"]⟩ "f" 1 =
      .ok (none, [[("o", .str "pdb")]]) := by with_unfolding_all rfl
  refine ⟨e, ids, hr, (infer_candidates rfl hlook ⟨["top", "gro"], rfl⟩ ?_ ?_
    hr _).mpr ?_⟩
  · exact List.forall_mem_singleton.mpr ⟨"pdb", rfl⟩
  · refine List.forall_mem_singleton.mpr fun _ => ⟨?_, ?_⟩
    · rintro _ ⟨⟩
      exact List.forall_mem_singleton.mpr ⟨["pdb"], rfl⟩
    · rintro _ ⟨⟩
      exact List.forall_mem_singleton.mpr ⟨"gro", rfl⟩
  · refine ⟨(converter "pdb" "gro").2, List.mem_singleton_self _, by decide +kernel, "gro", by
      decide, ("o", .str "pdb"), List.mem_singleton_self _, "pdb", List.mem_singleton_self _, by
        decide, ⟨?_, ?_⟩⟩
    · exact ⟨_, rfl, _, List.mem_singleton_self _, by decide⟩
    · exact ⟨_, rfl, _, List.mem_singleton_self _, by decide⟩

end WorkflowInference.Compile
