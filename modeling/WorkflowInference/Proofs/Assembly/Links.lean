import WorkflowInference.Proofs.Assembly.Rendering

/-!
Links in a workflow that was checked. Where the document of a workflow says that an input takes
what carries a mark, an earlier step of the same workflow has the mark on the output that was bound
to the input.
-/
namespace WorkflowInference.Assembly

open Entries Result Option
open Compile (under? stepsOf)

namespace Scene

variable {s : Scene} {i j k n m : Nat} {p q w : Process} {H : String → OutputRef → Prop} {d a : Doc}
  {e : String × Input} {r : OutputRef}

theorem Renders.boundInputs {e : Doc × Doc} (h : s.Renders n q d) (he : e ∈ renderedInputs d) :
    e ∈ q.boundInputs := by
  have hbound : e ∈ ofPairs q.boundInputs := by
    cases h with
    | step h => exact he
    | workflow h hdoc =>
      simp only [subtreeStep, renderedInputs] at he
      by_cases hempty : (ofPairs q.boundInputs).isEmpty
      · simp [hempty, under?, Doc.obj, Doc.map?, get?] at he
      · simpa [hempty, under?, Doc.obj, Doc.map?, get?] using he
  refine (mem_update_of_str (fun f hf => ?_) hbound).resolve_left (by simp)
  obtain ⟨x, -, hx⟩ := List.mem_filterMap.mp hf
  split at hx
  · cases hx
    exact ⟨_, rfl⟩
  · cases hx

theorem linked_of_alias {x : Input} (h : x.entry = Doc.obj [("wic_alias", a)]) :
    ∃ m src, x.binding = some (.linked m src) ∧ written m = a := by
  unfold Input.entry at h
  split at h
  · cases h
  · simp [Doc.obj] at h
  · rename_i m src hb
    refine ⟨m, src, hb, ?_⟩
    simpa [Doc.obj] using h
  · cases h

theorem Renders.alias (h : s.Renders n q d)
    (he : (name, Doc.obj [("wic_alias", a)]) ∈ renderedInputs d) :
    ∃ e ∈ q.inputs, name = .str e.2.facts.name ∧ ∃ m src, e.2.binding = some (.linked m src) ∧
      written m = a := by
  obtain ⟨e, hmem, hx⟩ := List.mem_filterMap.mp (h.boundInputs he)
  split at hx
  · obtain ⟨hname, hentry⟩ := Prod.mk.inj (some.inj hx)
    exact ⟨e, hmem, hname.symm, linked_of_alias hentry⟩
  · cases hx

theorem Renders.anchor {key a : String} {o : Output} (h : s.Renders n q d) (hstep : q.isStep)
    (ho : q.outputs.lookup key = some o) (ha : o.mark = some a) :
    Doc.obj [(o.facts.name, Doc.obj [("wic_anchor", .str a)])] ∈ renderedOutputs d := by
  cases h with
  | step h =>
    refine List.mem_filterMap.mpr ⟨(key, o), Keyed.mem_of_lookup ho, ?_⟩
    have hvalue : o.value = Doc.obj [("wic_anchor", .str a)] := by rw [Output.value, ha]; rfl
    rw [hvalue]
    rfl
  | workflow h => simp [Process.isStep, h] at hstep

theorem checkAllLinks_spec (h : s.checkAllLinks w earlier cs = .ok ()) (hc : cs[k]? = some c)
    (he : e ∈ c.2.inputs) (hr : e.2.source? = some r) :
    r.owner ∈ earlier ∨ ∃ l < k, (cs[l]?).map (·.1) = some r.owner := by
  induction cs generalizing earlier k with
  | nil => cases hc
  | cons b cs ih =>
    obtain ⟨_, hfirst, hrest⟩ := of_bind h
    cases k with
    | zero =>
      cases hc
      have hlink := forM_eq_ok hfirst e he
      simp only [hr] at hlink
      split at hlink
      · cases hlink
      split at hlink
      · cases hlink
      · rename_i hearlier
        exact .inl (by simpa using hearlier)
    | succ k =>
      rcases ih hrest hc with hmem | ⟨l, hl, hsome⟩
      · rcases List.mem_cons.mp hmem with heq | hmem
        · exact .inr ⟨0, Nat.succ_pos k, congrArg some heq.symm⟩
        · exact .inl hmem
      · exact .inr ⟨l + 1, Nat.succ_lt_succ hl, hsome⟩

theorem source_place (hs : s.Sound H) (hw : s.process? j = some w) (hstep : w.isStep = false)
    (hvalid : s.validateTo (m + 1) w = .ok ()) (hc : w.children[k]? = some c)
    (hq : s.process? c = some q) (he : e ∈ q.inputs) (hr : e.2.source? = some r) :
    ∃ l < k, w.children[l]? = some r.owner := by
  obtain ⟨hshape, -⟩ := validateTo_succ hstep hvalid
  obtain ⟨_, -, hshape⟩ := of_bind hshape
  obtain ⟨_, hlinks, -⟩ := of_bind hshape
  have hchild : (s.childrenOf w)[k]? = some (c, q) := by
    rw [childrenOf_getElem? hs hw, hc, bind_some, hq, map_some]
  obtain ⟨l, hl, hlth⟩ := (checkAllLinks_spec hlinks hchild he hr).resolve_left (by simp)
  refine ⟨l, hl, ?_⟩
  rw [childrenOf_getElem? hs hw] at hlth
  cases hcl : w.children[l]? with
  | none => simp [hcl] at hlth
  | some c' =>
    cases hv : s.process? c' with
    | none => simp [hcl, hv] at hlth
    | some v => simpa [hcl, hv] using hlth

/-- A step in the document of a workflow that was checked: it renders a child, and the outputs that
the inputs of the child are linked to belong to children that are rendered before it. -/
theorem steps_at_path {names : List (String × String)} {doc : Doc} {ks : List Nat} (hs : s.Sound H)
    (hp : s.process? i = some p) (hvalid : s.validateTo n p = .ok ())
    (hdoc : s.documentTo m names p = .ok doc) (hj : s.at? i ks = some j)
    (hw : s.process? j = some w) (hstep : w.isStep = false) :
    ∃ d m', renderedAt doc ks = some d ∧ ∀ (k : Nat) (step : Doc), (stepsOf d)[k]? = some step →
      ∃ c q, w.children[k]? = some c ∧ s.process? c = some q ∧ s.Renders m' q step ∧
        ∀ e ∈ q.inputs, ∀ r, e.2.source? = some r → ∃ l < k, w.children[l]? = some r.owner ∧
          ∃ v source, s.process? r.owner = some v ∧ (stepsOf d)[l]? = some source ∧
          s.Renders m' v source := by
  obtain ⟨n', m', names', d, hvalid', hdoc', hat⟩ := at_path hs hp hvalid hdoc hj hw hstep
  obtain - | n' := n'
  · cases hvalid'
  obtain - | m' := m'
  · cases hdoc'
  obtain ⟨ins, outs, steps, rfl, hrender⟩ := documentTo_succ hdoc'
  refine ⟨_, m', hat, fun k step hk => ?_⟩
  obtain ⟨c, q, hc, hq, hqstep⟩ := hrender.child hs hw hk
  refine ⟨c, q, hc, hq, hqstep, fun e he r hr => ?_⟩
  obtain ⟨l, hl, hplace⟩ := source_place hs hw hstep hvalid' hc hq he hr
  obtain ⟨v, source, hv, hsource, hrendered⟩ := hrender.of_child hs hw hplace
  exact ⟨l, hl, hplace, v, source, hv, hsource, hrendered⟩

def output? (s : Scene) (r : OutputRef) : Option Output :=
  (s.process? r.owner).bind fun p => p.outputs.lookup r.key

def Feeds (s : Scene) (w : Process) (k : Nat) (name : String) (r : OutputRef) : Prop :=
  ∃ c q, w.children[k]? = some c ∧ s.process? c = some q ∧ ∃ e ∈ q.inputs, e.2.facts.name = name ∧
    e.2.source? = some r

end Scene

/-- In the document of each workflow below a workflow that was checked, an input that refers to a
mark is linked to an output of a step at an earlier place of the same workflow, and the document has
the mark on that output. -/
theorem links_ordered_and_closed (session : Session) (cs : List Doc)
    (hpublic : ∀ c ∈ cs, (Command.ofDoc c).isPublic = true) {i : Nat} {p : Process}
    (hp : (build session cs).2.process? i = some p)
    (hvalid : (build session cs).2.validate p = .ok ()) {m : Nat} {names : List (String × String)}
    {doc : Doc} (hdoc : (build session cs).2.documentTo m names p = .ok doc) {ks : List Nat}
    {j : Nat} {w : Process} (hj : (build session cs).2.at? i ks = some j)
    (hw : (build session cs).2.process? j = some w) (hstep : w.isStep = false) :
    ∃ d, renderedAt doc ks = some d ∧ ∀ k step name a, (stepsOf d)[k]? = some step →
      (name, Doc.obj [("wic_alias", a)]) ∈ renderedInputs step →
      ∃ n r l source o, name = .str n ∧ (build session cs).2.Feeds w k n r ∧ l < k ∧
        w.children[l]? = some r.owner ∧
        (stepsOf d)[l]? = some source ∧ (build session cs).2.output? r = some o ∧
        Doc.obj [(o.facts.name, Doc.obj [("wic_anchor", a)])] ∈ renderedOutputs source := by
  have hs : (build session cs).2.Sound fun _ _ => True :=
    (build_sound hpublic fun _ _ _ _ _ _ _ _ _ _ => trivial).1
  obtain ⟨d, m', hat, hsteps⟩ := Scene.steps_at_path hs hp hvalid hdoc hj hw hstep
  refine ⟨d, hat, fun k step name a hk halias => ?_⟩
  obtain ⟨c, q, hc, hq, hqstep, hearlier⟩ := hsteps k step hk
  obtain ⟨e, he, rfl, mark, src, hb, rfl⟩ := hqstep.alias halias
  -- The input knows the output whose mark it refers to.
  obtain ⟨r, b, rfl, rfl, v, o, hv, hvstep, ho, hmark⟩ := (hs c q hq).backed e he mark src hb
  have hsource : e.2.source? = some r := by rw [Input.source?, hb]
  obtain ⟨l, hl, hplace, v', source, hv', hsource', hrendered⟩ := hearlier e he r hsource
  cases hv.symm.trans hv'
  exact ⟨e.2.facts.name, r, l, source, o, rfl, ⟨c, q, hc, hq, e, he, rfl, hsource⟩, hl, hplace,
    hsource', by rw [Scene.output?, hv, Option.bind_some, ho], hrendered.anchor hvstep ho hmark⟩

namespace Sample

def passing (command : String) : Doc :=
  Doc.obj [("class", .str "CommandLineTool"), ("cwlVersion", .str "v1.2"),
  ("baseCommand", .str command), ("inputs", Doc.obj [("x", Doc.obj [("type", .str "string")])]),
  ("outputs", Doc.obj [("o", Doc.obj [("type", .str "string")])])]

def newStep (id : String) : Doc := .list [.str "step_registry", .str id, .str (id ++ ".cwl"),
  .list [Doc.obj [("stem", .str id), ("cwl", passing "true")]], .map []]

def newWorkflow (id : String) (children : List String) : Doc :=
  .list [.str "workflow", .str id, .list (children.map .str), .str id]

def link (id source : String) : Doc :=
  .list [.str "bind", .str id, .str "x", .list [.str "out", .str source, .str "o"]]

def linked : List Doc :=
  [newStep "a", newStep "b", link "b" "a", newWorkflow "inner" ["a", "b"],
    newWorkflow "outer" ["inner"]]

def session : Session := { files := { cwd := "/work" } }

def scene (cs : List Doc) : Scene := (build session cs).2

-- Rewriting with this spares the kernel a comparison in which it would run the commands.
theorem build_eq_scene (cs : List Doc) : (build session cs).2 = scene cs := rfl

def processAt (s : Scene) (i : Nat) : Process := (s.process? i).getD ⟨"", [], [], .workflow []⟩

def documentAt (s : Scene) (i : Nat) : Doc := ((s.document (processAt s i)).toOption).getD .null

variable {s : Scene} {i : Nat}

theorem process?_processAt (h : (s.process? i).isSome) : s.process? i = some (processAt s i) := by
  obtain ⟨p, hp⟩ := isSome_iff_exists.mp h
  rw [processAt, hp, getD_some]

theorem Result.ok_getD {α : Type} {r : Result α} {d : α} (h : r.toOption.isSome) :
    r = .ok (r.toOption.getD d) := by
  cases r with
  | error e => cases h
  | ok a => rfl

theorem document_documentAt (h : (s.document (processAt s i)).toOption.isSome) :
    s.document (processAt s i) = .ok (documentAt s i) := Result.ok_getD h

theorem validate_processAt (h : (s.validate (processAt s i)).toOption.isSome) :
    s.validate (processAt s i) = .ok () := Result.ok_getD (d := ()) h

end Sample

open Sample in
theorem links_ordered_and_closed_linked :
    ((renderedAt (documentAt (scene linked) 3) [0]).any fun d => ((stepsOf d)[1]?).any fun step =>
      (renderedInputs step).any fun e => e.2 == Doc.obj [("wic_alias", .str "xb")]) = true ∧
    ∃ d, renderedAt (documentAt (scene linked) 3) [0] = some d ∧
      ∀ k step name a, (stepsOf d)[k]? = some step →
      (name, Doc.obj [("wic_alias", a)]) ∈ renderedInputs step →
      ∃ n r l source o, name = .str n ∧
        (scene linked).Feeds (processAt (scene linked) 2) k n r ∧ l < k ∧
        (processAt (scene linked) 2).children[l]? = some r.owner ∧ (stepsOf d)[l]? = some source ∧
        (scene linked).output? r = some o ∧
        Doc.obj [(o.facts.name, Doc.obj [("wic_anchor", a)])] ∈ renderedOutputs source := by
  have hall : (∀ c ∈ linked, (Command.ofDoc c).isPublic = true) ∧
      ((scene linked).process? 3).isSome = true ∧
      ((scene linked).process? 2).isSome = true ∧
      ((scene linked).validate (processAt (scene linked) 3)).toOption.isSome = true ∧
      ((scene linked).document (processAt (scene linked) 3)).toOption.isSome = true ∧
      (scene linked).at? 3 [0] = some 2 ∧ (processAt (scene linked) 2).isStep = false ∧
      ((renderedAt (documentAt (scene linked) 3) [0]).any fun d => ((stepsOf d)[1]?).any fun step =>
        (renderedInputs step).any fun e => e.2 == Doc.obj [("wic_alias", .str "xb")]) = true := by
    decide +kernel
  obtain ⟨hpublic, hp, hw, hvalid, hdoc, hat, hstep, halias⟩ := hall
  have hlinks := @links_ordered_and_closed session linked hpublic
  rw [build_eq_scene] at hlinks
  exact ⟨halias, hlinks (process?_processAt hp) (validate_processAt hvalid)
    (document_documentAt hdoc) hat (process?_processAt hw) hstep⟩

end WorkflowInference.Assembly
