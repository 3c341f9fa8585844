import WorkflowInference.Proofs.Assembly.Tools

/-!
Marks of outputs. An output gets its mark from the first input that is linked to it and keeps it, so
the marks of a scene are among those that were asked for while it was built.
-/
namespace WorkflowInference.Compile

def markedOutput (o a : String) : Doc := Doc.obj [(o, Doc.obj [("wic_anchor", .str a)])]

variable {o a : String} {c : Scope} {s : Site}

theorem markedOutput_inj : markedOutput o a = markedOutput o' a' ↔ o = o' ∧ a = a' := by
  simp [markedOutput, Doc.obj]

theorem nameOutput_marked (h : Keyed.has acc.1.edgeDefs a = false) :
    nameOutput c s acc (markedOutput o a) =
      .ok ((acc.1.define a ⟨c.path s, o⟩).call a ⟨c.path s, o⟩, acc.2 ++ [.str o]) := by
  have hname : nameOutput c s acc (markedOutput o a) = if Keyed.has acc.1.edgeDefs a then
      throw (Error.multipleDefinitions a).failure
      else pure ((acc.1.define a ⟨c.path s, o⟩).call a ⟨c.path s, o⟩, acc.2 ++ [.str o]) := rfl
  rw [hname, h]
  rfl

theorem nameOutput_accepts {outs : List (String × String)} {d : Draft} {done : List Doc}
    (hnew : ∀ x ∈ outs, Keyed.has d.edgeDefs x.2 = false) (hnodup : (outs.map (·.2)).Nodup) :
    ∃ acc, (outs.map fun x => markedOutput x.1 x.2).foldlM (nameOutput c s) (d, done) =
      .ok acc := by
  induction outs generalizing d done with
  | nil => exact ⟨_, rfl⟩
  | cons x outs ih =>
    obtain ⟨hx, hnodup⟩ := List.nodup_cons.mp hnodup
    rw [List.map_cons, List.foldlM_cons, nameOutput_marked (hnew x List.mem_cons_self)]
    refine ih (fun y hy => ?_) hnodup
    have hne : x.2 ≠ y.2 := fun heq => hx (List.mem_map.mpr ⟨y, hy, heq.symm⟩)
    change Keyed.has (Keyed.put d.edgeDefs x.2 _) y.2 = false
    rw [Keyed.has_put, hnew y (List.mem_cons_of_mem x hy), decide_eq_false hne]
    rfl

end WorkflowInference.Compile

namespace WorkflowInference.Assembly

open Compile
  (under? stepsOf Scope Site Draft nameOutput markedOutput markedOutput_inj nameOutput_accepts)

/-- The marks that were asked for: after each of the commands, an input that is linked to an output
asks for its key and the name of its process. -/
def asked (session : Session) (cs : List Doc) : List (String × OutputRef) :=
  cs.inits.flatMap fun ds => (build session ds).2.processes.flatMap fun p =>
    p.inputs.filterMap fun e => e.2.source?.map (e.1 ++ p.name, ·)

theorem build_asked (hpublic : ∀ c ∈ cs, (Command.ofDoc c).isPublic) :
    (build session cs).2.Sound fun a r => (a, r) ∈ asked session cs := by
  refine (build_sound hpublic fun ds hds i p key x r hp hx hr => ?_).1
  refine List.mem_flatMap.mpr ⟨ds, (List.mem_inits ds cs).mpr hds,
    List.mem_flatMap.mpr ⟨p, List.mem_of_getElem? hp, ?_⟩⟩
  exact List.mem_filterMap.mpr ⟨(key, x), Keyed.mem_of_lookup hx, by rw [hr, Option.map_some]⟩

def Process.marks (p : Process) : List (String × String) :=
  p.outputs.filterMap fun e => e.2.mark.map (e.2.facts.name, ·)

def renderedStep (doc : Doc) (ks : List Nat) (k : Nat) : Option Doc :=
  (renderedAt doc ks).bind fun d => (stepsOf d)[k]?

namespace Scene

variable {s : Scene} {i k c n m : Nat} {p q : Process} {doc step : Doc} {ks : List Nat}
  {o a : String} {H : String → OutputRef → Prop} {names : List (String × String)}

theorem mem_marks : (o, a) ∈ q.marks ↔ ∃ e ∈ q.outputs, e.2.facts.name = o ∧ e.2.mark = some a := by
  simp only [Process.marks, List.mem_filterMap, Option.map_eq_some_iff, Prod.mk.injEq]
  constructor
  · rintro ⟨e, he, b, hb, rfl, rfl⟩
    exact ⟨e, he, rfl, hb⟩
  · rintro ⟨e, he, rfl, ha⟩
    exact ⟨e, he, a, ha, rfl, rfl⟩

theorem Renders.outputs (h : s.Renders n q step) (hq : q.Sound H s c) :
    renderedOutputs step = q.marks.map fun x => markedOutput x.1 x.2 := by
  cases h with
  | step h =>
    rw [Process.marks, List.map_filterMap]
    refine List.filterMap_congr fun e _ => ?_
    cases hmark : e.2.mark with
    | none => simp [Output.value, hmark, Doc.isNull]
    | some b => rw [Output.value, hmark]; rfl
  | workflow h hdoc =>
    have hmarks : q.marks = [] := by
      rw [List.eq_nil_iff_forall_not_mem]
      rintro ⟨o, a⟩ hx
      obtain ⟨e, he, -, ha⟩ := mem_marks.mp hx
      have hstep := (hq.marks e he a ha).1
      simp [Process.isStep, h] at hstep
    rw [hmarks]
    simp [renderedOutputs, subtreeStep, under?, Doc.obj, Doc.map?, Entries.get?]

theorem renderedStep_renders (hs : s.Sound H) (hp : s.process? i = some p)
    (hvalid : s.validateTo n p = .ok ()) (hdoc : s.documentTo m names p = .ok doc)
    (hc : s.at? i (ks ++ [k]) = some c) (hk : renderedStep doc ks k = some step) :
    ∃ m' q, s.process? c = some q ∧ s.Renders m' q step ∧
      ∀ e ∈ q.inputs, ∀ r, e.2.source? = some r →
      ∃ ls, s.at? i ls = some r.owner := by
  rw [at?_append] at hc
  obtain ⟨j, hj, hc⟩ := Option.bind_eq_some_iff.mp hc
  obtain ⟨w, hw, hc⟩ := Option.bind_eq_some_iff.mp hc
  obtain ⟨c', hc, heq⟩ := Option.bind_eq_some_iff.mp hc
  cases heq
  have hstep := isStep_of_child hc
  obtain ⟨d, hd, hk⟩ := Option.bind_eq_some_iff.mp hk
  obtain ⟨d', m', hd', hsteps⟩ := steps_at_path hs hp hvalid hdoc hj hw hstep
  cases hd.symm.trans hd'
  obtain ⟨c', q, hc', hq, hqd, hearlier⟩ := hsteps k step hk
  cases hc.symm.trans hc'
  refine ⟨m', q, hq, hqd, fun e he r hr => ?_⟩
  obtain ⟨l, -, hl, -⟩ := hearlier e he r hr
  refine ⟨ks ++ [l], ?_⟩
  rw [at?_append, hj, Option.bind_some, at?, hw, Option.bind_some, hl]
  rfl

/-- No two outputs below a process were ever asked to carry one mark. -/
def MarksApart (s : Scene) (H : String → OutputRef → Prop) (i : Nat) : Prop :=
  ∀ a r r' ks ks', s.at? i ks = some r.owner → s.at? i ks' = some r'.owner → H a r → H a r' → r = r'

/-- What the marks in a document stand for. A mark belongs to one output of one process; an input
that refers to a mark is linked to the output that has it; and where a step stands at one place, the
compiler takes all names that it gives to its outputs, whatever steps at other places have named
before. -/
structure Identified (s : Scene) (i : Nat) (doc : Doc) : Prop where
  unique {ks ks' : List Nat} {k k' c c' : Nat} {step step' : Doc} {o o' a : String}
    (hc : s.at? i (ks ++ [k]) = some c)
    (hk : renderedStep doc ks k = some step) (ha : markedOutput o a ∈ renderedOutputs step)
    (hc' : s.at? i (ks' ++ [k']) = some c') (hk' : renderedStep doc ks' k' = some step')
    (ha' : markedOutput o' a ∈ renderedOutputs step') : c = c' ∧ o = o'
  denoted {ks : List Nat} {k c : Nat} {step name a : Doc} (hc : s.at? i (ks ++ [k]) = some c)
    (hk : renderedStep doc ks k = some step)
    (ha : (name, Doc.obj [("wic_alias", a)]) ∈ renderedInputs step) :
    ∃ q e r out b, s.process? c = some q ∧ e ∈ q.inputs ∧ name = .str e.2.facts.name ∧
    e.2.source? = some r ∧ s.output? r = some out ∧ a = .str b ∧ out.mark = some b ∧
    ∀ ks' k' c' step' o, s.at? i (ks' ++ [k']) = some c' → renderedStep doc ks' k' = some step' →
    markedOutput o b ∈ renderedOutputs step' → c' = r.owner ∧ o = out.facts.name
  accepted {ks : List Nat} {k c : Nat} {step : Doc} (hc : s.at? i (ks ++ [k]) = some c)
    (hk : renderedStep doc ks k = some step) (honce : ∀ ls, s.at? i ls = some c → ls = ks ++ [k])
    (scope : Scope) (site : Site) (d : Draft)
    (hd : ∀ a, Keyed.has d.edgeDefs a → ∃ ks' k' c' step' o, s.at? i (ks' ++ [k']) = some c' ∧
      renderedStep doc ks' k' = some step' ∧ markedOutput o a ∈ renderedOutputs step' ∧
      ks' ++ [k'] ≠ ks ++ [k]) :
    ∃ acc, (renderedOutputs step).foldlM (nameOutput scope site) (d, []) = .ok acc

section

variable (hs : s.Sound H) (hp : s.process? i = some p) (hvalid : s.validateTo n p = .ok ())
  (hdoc : s.documentTo m names p = .ok doc)
include hs hp hvalid hdoc

theorem marked_output (hc : s.at? i (ks ++ [k]) = some c) (hk : renderedStep doc ks k = some step)
    (ha : markedOutput o a ∈ renderedOutputs step) :
    ∃ key out, s.output? ⟨c, key⟩ = some out ∧ out.facts.name = o ∧ H a ⟨c, key⟩ := by
  obtain ⟨m', q, hq, hqd, -⟩ := renderedStep_renders hs hp hvalid hdoc hc hk
  rw [hqd.outputs (hs c q hq)] at ha
  obtain ⟨⟨o', a'⟩, hx, heq⟩ := List.mem_map.mp ha
  obtain ⟨rfl, rfl⟩ := markedOutput_inj.mp heq
  obtain ⟨e, he, hname, hmark⟩ := mem_marks.mp hx
  refine ⟨e.1, e.2, ?_, hname, ((hs c q hq).marks e he _ hmark).2⟩
  rw [output?, hq, Option.bind_some]
  exact Keyed.lookup_of_mem (hs c q hq).distinct he

theorem identified (hapart : s.MarksApart H i) : s.Identified i doc := by
  have hunique : ∀ {ks k c step o a r out ls}, s.at? i (ks ++ [k]) = some c →
      renderedStep doc ks k = some step → markedOutput o a ∈ renderedOutputs step → s.at? i ls =
      some r.owner → s.output? r = some out → H a r → c = r.owner ∧ o = out.facts.name := by
    intro ks k c step o a r out ls hc hk ha hr hout hH
    obtain ⟨key, out', hout', rfl, hH'⟩ := marked_output hs hp hvalid hdoc hc hk ha
    have heq := hapart a ⟨c, key⟩ r _ ls hc hr hH' hH
    subst heq
    cases hout.symm.trans hout'
    exact ⟨rfl, rfl⟩
  refine ⟨fun hc hk ha hc' hk' ha' => ?_, fun {ks k c step name a} hc hk ha => ?_,
    fun {ks k c step} hc hk honce scope site d hd => ?_⟩
  · obtain ⟨key, out, hout, rfl, hH⟩ := marked_output hs hp hvalid hdoc hc' hk' ha'
    exact hunique hc hk ha hc' hout hH
  · obtain ⟨m', q, hq, hqd, hplace⟩ := renderedStep_renders hs hp hvalid hdoc hc hk
    obtain ⟨e, he, rfl, mark, src, hb, rfl⟩ := hqd.alias ha
    obtain ⟨r, b, rfl, rfl, v, out, hv, -, hout, hmark⟩ := (hs c q hq).backed e he mark src hb
    have hsource : e.2.source? = some r := by rw [Input.source?, hb]
    have hout' : s.output? r = some out := by rw [output?, hv, Option.bind_some, hout]
    obtain ⟨ls, hls⟩ := hplace e he r hsource
    refine ⟨q, e, r, out, b, hq, he, rfl, hsource, hout', rfl, hmark,
      fun ks' k' c' step' o hc' hk' ha' => ?_⟩
    exact hunique hc' hk' ha' hls hout' ((hs _ v hv).marks _ (Keyed.mem_of_lookup hout) b hmark).2
  · obtain ⟨m', q, hq, hqd, -⟩ := renderedStep_renders hs hp hvalid hdoc hc hk
    have houts := hqd.outputs (hs c q hq)
    rw [houts]
    refine nameOutput_accepts (fun x hx => ?_) ?_
    · -- A name that is taken was given at another place, but then the process would stand at both.
      rw [Bool.eq_false_iff]
      intro hhas
      obtain ⟨ks', k', c', step', o, hc', hk', ha', hne⟩ := hd x.2 hhas
      have hx' : markedOutput x.1 x.2 ∈ renderedOutputs step := houts ▸ List.mem_map_of_mem hx
      obtain ⟨key, out, hout, -, hH⟩ := marked_output hs hp hvalid hdoc hc hk hx'
      obtain ⟨rfl, -⟩ := hunique hc' hk' ha' hc hout hH
      exact hne (honce _ hc')
    · rw [Process.marks, List.map_filterMap]
      refine List.pairwise_filterMap.mpr ((List.pairwise_map.mp (hs c q hq).distinct).imp_of_mem ?_)
      rintro e e' he he' hne a ha a' ha' rfl
      obtain ⟨a', hmark, rfl⟩ : ∃ b, e.2.mark = some b ∧ b = a := by simpa using ha
      obtain ⟨b', hmark', rfl⟩ : ∃ b, e'.2.mark = some b ∧ b = a' := by simpa using ha'
      have heq := hapart b' ⟨c, e.1⟩ ⟨c, e'.1⟩ _ _ hc hc ((hs c q hq).marks e he _ hmark).2
        ((hs c q hq).marks e' he' _ hmark').2
      exact hne (congrArg OutputRef.key heq)

end

end Scene

theorem marks_identify_outputs (session : Session) (cs : List Doc)
    (hpublic : ∀ c ∈ cs, (Command.ofDoc c).isPublic = true) {i : Nat} {p : Process}
    (hp : (build session cs).2.process? i = some p)
    (hvalid : (build session cs).2.validate p = .ok ()) {m : Nat} {names : List (String × String)}
    {doc : Doc} (hdoc : (build session cs).2.documentTo m names p = .ok doc)
    (hapart : (build session cs).2.MarksApart (fun a r => (a, r) ∈ asked session cs) i) :
    (build session cs).2.Identified i doc :=
  Scene.identified (build_asked hpublic) hp hvalid hdoc hapart

namespace Sample

def crossing (name name' : String) : List Doc :=
  [toolStep "a" "a" "head", toolStep "b" name "head", toolStep "c" "c" "tail", toolStep "d" name'
    "tail", give "a" "v", give "c" "v", link "b" "a", link "d" "c", newWorkflow "first" ["a", "b"],
    newWorkflow "second" ["c", "d"], newWorkflow "both" ["first", "second"]]

def markOf? : Doc → Option (String × String)
  | .map [(.str o, .map [(.str k, .str a)])] => if k = "wic_anchor" then some (o, a) else none
  | _ => none

def marksAt (s : Scene) (i : Nat) (ks : List Nat) (k : Nat) : List (String × String) :=
  ((renderedStep (documentAt s i) ks k).map fun step =>
    (renderedOutputs step).filterMap markOf?).getD []

end Sample

open Sample in
theorem marks_identify_outputs_crossing : ("o", "xu") ∈ marksAt (scene (crossing "t" "u")) 6 [1] 0 ∧
    (scene (crossing "t" "u")).Identified 6 (documentAt (scene (crossing "t" "u")) 6) := by
  have hall : (∀ c ∈ crossing "t" "u", (Command.ofDoc c).isPublic = true) ∧
      ((scene (crossing "t" "u")).process? 6).isSome = true ∧ ((scene (crossing "t" "u")).validate
      (processAt (scene (crossing "t" "u")) 6)).toOption.isSome = true ∧
      ((scene (crossing "t" "u")).document
      (processAt (scene (crossing "t" "u")) 6)).toOption.isSome = true ∧
      (∀ e ∈ asked session (crossing "t" "u"), ∀ e' ∈ asked session (crossing "t" "u"), e.1 = e'.1 →
      e.2 = e'.2) ∧ ("o", "xu") ∈ marksAt (scene (crossing "t" "u")) 6 [1] 0 := by decide +kernel
  obtain ⟨hpublic, hp, hvalid, hdoc, hapart, hmarks⟩ := hall
  have hidentify := @marks_identify_outputs session (crossing "t" "u") hpublic
  rw [build_eq_scene] at hidentify
  exact ⟨hmarks, hidentify (process?_processAt hp) (validate_processAt hvalid)
    (document_documentAt hdoc) fun a r r' _ _ _ _ hr hr' => hapart (a, r) hr (a, r') hr' rfl⟩

end WorkflowInference.Assembly
