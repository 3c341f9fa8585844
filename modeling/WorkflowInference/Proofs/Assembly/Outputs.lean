import WorkflowInference.Proofs.Assembly.Tools
import WorkflowInference.Proofs.Compile.Declared

/-!
The declared outputs of workflows, once they are compiled. Only the workflow that is compiled as a
whole names steps as the compiler does; a workflow inside still has the names that its author gave.
-/
namespace WorkflowInference

open Entries Result Namespaces List

variable {α : Type} {k : String}

theorem Result.map_mapM {β γ : Type} {f : α → Result β} {g : β → γ} {h : α → γ} {as : List α}
    {bs : List β} (hmap : as.mapM f = .ok bs) (hf : ∀ a b, f a = .ok b → g b = h a) :
    bs.map g = as.map h := by
  have hall := mapM_eq_ok hmap
  clear hmap
  induction hall with
  | nil => rfl
  | cons hab _ ih => rw [map_cons, map_cons, hf _ _ hab, ih]

theorem Keyed.lookup_foldl_put_ne {es acc : List (String × α)} (h : k ∉ keys es) :
    (es.foldl (fun acc e => put acc e.1 e.2) acc).lookup k = acc.lookup k := by
  induction es generalizing acc with
  | nil => rfl
  | cons e es ih =>
    rw [keys, map_cons, mem_cons, not_or] at h
    rw [foldl_cons, ih h.2, lookup_put, if_neg (Ne.symm h.1)]

theorem Keyed.lookup_foldl_put {es acc : List (String × α)} {v : α} (hn : (keys es).Nodup)
    (h : (k, v) ∈ es) : (es.foldl (fun acc e => put acc e.1 e.2) acc).lookup k = some v := by
  obtain ⟨before, after, rfl⟩ := append_of_mem h
  rw [keys, map_append, map_cons] at hn
  have hafter : k ∉ keys after := (nodup_cons.mp (nodup_append.mp hn).2.1).1
  rw [foldl_append, foldl_cons, lookup_foldl_put_ne hafter, lookup_put, if_pos rfl]

namespace Assembly

open Compile

def OutputSource.text (names : List (String × String)) (src : OutputSource) : String :=
  src.step.elim src.name fun n => (names.lookup n).getD n ++ "/" ++ src.name

namespace Scene

variable {s : Scene} {p w : Process} {names : List (String × String)} {ins outs : Entries}
  {k n m : Nat}

theorem outputDeclarations_spec (h : outputDeclarations p names = .ok outs)
    (hn : (p.outputs.map (·.2.facts.name)).Nodup) {e : String × Output} (he : e ∈ p.outputs) :
    ∃ src, e.2.source = some src ∧
      (get? outs e.2.facts.name).bind (under? · "outputSource") = some (.str (src.text names)) := by
  obtain ⟨es, hes, rfl⟩ := of_map h
  have hproper : Entries.Proper es := by
    have hkeys : keys es = p.outputs.map fun e => .str e.2.facts.name := by
      refine map_mapM hes fun e f hef => ?_
      obtain ⟨d, -, hef⟩ := of_bind hef
      cases pure_eq_ok.mp hef
      rfl
    constructor
    · intro f hf
      have hmem : f.1 ∈ keys es := mem_map_of_mem hf
      rw [hkeys] at hmem
      obtain ⟨x, -, hx⟩ := mem_map.mp hmem
      exact ⟨_, hx.symm⟩
    · rw [hkeys]
      exact List.Nodup.of_map Doc.text (by rwa [map_map])
  obtain ⟨f, hf, hef⟩ := mem_mapM hes he
  obtain ⟨d, hd, hef⟩ := of_bind hef
  cases pure_eq_ok.mp hef
  rw [ofPairs, get?_update_of_proper hproper (hproper.get?_eq hf), Option.bind_some]
  unfold Output.declaration at hd
  split at hd
  · cases hd
  rename_i src hsrc
  split at hd
  · cases hd
  cases hd
  exact ⟨src, hsrc, rfl⟩

theorem checkNames_nodup (h : checkNames x ns seen = .ok ()) : ns.Nodup ∧ ∀ n ∈ ns, n ∉ seen := by
  induction ns generalizing seen with
  | nil => exact ⟨nodup_nil, by simp⟩
  | cons n ns ih =>
    rw [checkNames] at h
    split at h
    · cases h
    rename_i hseen
    obtain ⟨hnodup, hfresh⟩ := ih h
    refine ⟨nodup_cons.mpr ⟨fun hmem => hfresh n hmem mem_cons_self, hnodup⟩, ?_⟩
    rintro x (_ | ⟨_, hx⟩)
    · simpa using hseen
    · exact fun hmem => hfresh x hx (mem_cons_of_mem n hmem)

theorem lookup_compiledNames {c : Nat} (hn : ((s.childrenOf w).map (·.2.name)).Nodup)
    (hc : (s.childrenOf w)[k]? = some (c, p)) :
    (s.compiledNames w).lookup p.name = some (stepName w.name k p.key) := by
  refine Keyed.lookup_foldl_put ?_ ?_
  · rw [show Keyed.keys _ = (s.childrenOf w).map (·.2.name) from
      ext_getElem? fun j => by simp [Keyed.keys, Function.comp_def]]
    exact hn
  · obtain ⟨hk, heq⟩ := List.getElem?_eq_some_iff.mp hc
    exact mem_mapIdx.mpr ⟨k, hk, by rw [heq]; rfl⟩

/-- What a declared output of a workflow is compiled to: an input of the workflow, or an output of
the step that was bound. -/
inductive Resolves (s : Scene) (w : Process) (q : PartTree) : OutputSource → String → Prop
  | input {n : String} (declared : Keyed.has w.inputs n) (compiled : q.IsInput (.str n)) :
      Resolves s w q ⟨none, n, none⟩ n
  | output {n : Option String} {k : Nat} {r : OutputRef} {o : Output} {step : Doc}
      (child : w.children[k]? = some r.owner) (bound : s.output? r = some o)
      (compiled : q.steps[k]? = some step) (out : .str o.facts.name ∈ outEntries step) :
      Resolves s w q ⟨n, o.facts.name, some r⟩ (PartTree.stepId step ++ "/" ++ o.facts.name)

section Drafted

variable {set : Setting} {t : Task} {r : Compiled} {steps : List Doc}
  {run : OnceRun (compileAt set n) set t r}

section

variable (draft : s.Drafted m names w run ins outs steps)

include draft

theorem Drafted.outputSource_eq (hn : (w.outputs.map (·.2.facts.name)).Nodup) (he : e ∈ w.outputs)
    (hplain : ¬ sep.toList <:+: e.2.facts.name.toList) :
    ∃ src, e.2.source = some src ∧
      outputSource r.tree.part.cwl e.2.facts.name = some (src.text names) := by
  obtain ⟨src, hsrc, hget⟩ := outputDeclarations_spec draft.rendered.outputs hn he
  have houts : under? t.yml "outputs" = some (.map outs) := by
    rw [draft.yml]
    cases outs with
    | nil => cases hget
    | cons => cases ins <;> rfl
  refine ⟨src, hsrc, ?_⟩
  rw [run.outputSource_eq houts hplain, outputSource, houts]
  change ((get? outs _).bind _).bind _ = _
  rw [hget]
  rfl

theorem Drafted.isInput (he : e ∈ w.inputs) : r.tree.IsInput (.str e.2.facts.name) := by
  obtain ⟨es, hes, hins⟩ := of_bind draft.rendered.inputs
  obtain ⟨f, hf, hef⟩ := mem_mapM hes he
  have hname : f.1 = .str e.2.facts.name := by
    dsimp only at hef
    split at hef
    · cases hef
    · cases hef
      rfl
  have hhas : has ins e.2.facts.name := by
    rw [← pure_eq_ok.mp hins, ofPairs, has_update]
    exact .inr (has_iff_mem.mpr (mem_map.mpr ⟨f, hf, hname⟩))
  refine run.isInput_declared ?_ hhas
  rw [draft.yml]
  cases ins with
  | nil => cases hhas
  | cons => rfl

theorem Drafted.step {H : String → OutputRef → Prop} (hs : s.Sound H)
    (hno : set.options.insertSteps = false) (h : s.Compiles set w r.tree)
    (hknown : ∀ e ∈ s.childrenOf w, e.2.Known set.tools) (hw : s.process? i = some w)
    (hc : w.children[k]? = some c) (hq : s.process? c = some q) (hpart : q.content = .step part)
    (ho : o ∈ outputTexts part.tool) :
    ∃ step, r.tree.steps[k]? = some step ∧
      PartTree.stepId step = stepName (Path.stem t.path) k q.name ∧
      .str o ∈ outEntries step := by
  obtain ⟨q', d, hq', hd, hqd⟩ := draft.rendered.of_child hs hw hc
  cases hq.symm.trans hq'
  have hkey := draft.key_at hd hqd.key_eq
  rw [Process.key, Process.isStep, hpart, if_pos rfl] at hkey
  have hk : k < run.scope.keys.length := (List.getElem?_eq_some_iff.mp hkey).1
  obtain ⟨step, hstep⟩ := run.exists_step hk
  obtain ⟨u, hu⟩ : ∃ u, r.tree.subs[k]? = some u :=
    ⟨_, getElem?_eq_getElem (run.subs_length.symm ▸ hk : k < r.tree.subs.length)⟩
  obtain ⟨c', q', hc', hq', hqu, -⟩ := h.child hs hno hw hknown hu
  cases hc.symm.trans hc'
  cases hq.symm.trans hq'
  refine ⟨step, hstep, ?_, draft.placed.mem_out hu hstep ?_⟩
  · rw [(draft.placed.steps_spec hstep).2.1, getD_eq_getElem?_getD,
      show run.scope.keys[k]? = some q.name from hkey]
    rfl
  · cases hqu with
    | step hpart' hcwl =>
      cases hpart.symm.trans hpart'
      rwa [hcwl]
    | workflow hstep => simp [Process.isStep, hpart] at hstep

end

end Drafted

/-- A declared output whose source is named as the compiler finds it. An output of a step can be so
only in the workflow that is compiled as a whole. -/
structure Settled (s : Scene) (whole : Prop) (w : Process) (e : String × Output) : Prop where
  names : (w.outputs.map (·.2.facts.name)).Nodup
  plain : ¬ sep.toList <:+: e.2.facts.name.toList
  input : ∀ n, e.2.source = some ⟨none, n, none⟩ → plainName n = n
  output : ∀ n o r, e.2.source = some ⟨some n, o, some r⟩ → whole ∧ Path.stem w.name = w.name ∧
    ∃ p part, s.process? r.owner = some p ∧ p.name = n ∧ p.content = .step part ∧
    o ∈ outputTexts part.tool

end Scene

theorem declared_outputs_resolve (session : Session) (cs : List Doc)
    (hpublic : ∀ c ∈ cs, (Command.ofDoc c).isPublic = true) {i : Nat}
    (hapart : (build session cs).2.ToolsApart i) {tree : PartTree} {t : Scene}
    (htree : (Assemble.compileTree i []).outcome (build session cs).2 = (.ok tree, t))
    {ks : List Nat} {q : PartTree} (hat : tree.at? ks = some q) (hsubs : q.subs ≠ []) :
    ∃ j w, (build session cs).2.at? i ks = some j ∧ (build session cs).2.process? j = some w ∧
      ∀ e ∈ w.outputs, (build session cs).2.Settled (ks = []) w e →
        ∃ src text, e.2.source = some src ∧ outputSource q.part.cwl e.2.facts.name = some text ∧
          (build session cs).2.Resolves w q src text := by
  have hs : (build session cs).2.Sound fun _ _ => True :=
    (build_sound hpublic fun _ _ _ _ _ _ _ _ _ _ => trivial).1
  generalize (build session cs).2 = s at *
  obtain ⟨p, doc, r, hp, hvalid, hdoc, hstep, hrun, rfl⟩ := (Scene.compileTree_ends []).ok htree
  have hroot : s.Compiles _ p r.tree := .workflow (t := Scene.rootTask p doc) hstep hdoc hrun
  have hknown : ∀ ks j w, s.at? i ks = some j → s.process? j = some w →
      w.Known (s.knownTools i []) :=
    fun _ _ _ hj hw => hapart.known hs hp hj hw
  obtain ⟨j, w, hj, hw, hcompiles, -⟩ := hroot.at_path hs rfl hknown hp hat
  have hchildren := Scene.known_children ks hknown hj hw
  refine ⟨j, w, hj, hw, fun e he hset => ?_⟩
  cases hcompiles with
  | step _ _ hleaf => exact absurd hleaf hsubs
  | workflow hwstep hdoc' hrun' =>
    obtain ⟨m, n, run, ins, outs, steps, draft⟩ := Scene.drafted rfl hrun' hdoc' hchildren
    obtain ⟨src, hsrc, htext⟩ := draft.outputSource_eq hset.names he hset.plain
    cases (hs j w hw).sources e he src hsrc with
    | @input key hkey =>
      obtain ⟨x, hx⟩ := Option.isSome_iff_exists.mp hkey
      replace hx := Keyed.mem_of_lookup hx
      have hname : x.facts.name = key := ((hs j w hw).named hwstep _ hx).trans (hset.input key hsrc)
      exact ⟨_, _, hsrc, htext, .input hkey (hname ▸ draft.isInput hx)⟩
    | @output n r' q o hq hqstep ho =>
      obtain ⟨rfl, hstem, q', part, hq', rfl, hpart, hout⟩ := hset.output _ _ _ hsrc
      rw [← Option.some.inj hat]
      cases hj
      cases hp.symm.trans hw
      cases hq.symm.trans hq'
      obtain ⟨m, n, run, ins, outs, steps, draft⟩ :=
        Scene.drafted (t := Scene.rootTask p doc) rfl hrun hdoc hchildren
      obtain ⟨src', hsrc', htext⟩ := draft.outputSource_eq hset.names he hset.plain
      cases hsrc.symm.trans hsrc'
      obtain ⟨hshape, -⟩ := Scene.validateTo_succ hstep hvalid
      obtain ⟨_, hnames, _, -, hsources⟩ := Result.of_bind₂ hshape
      -- The check of the sources places the step among the children.
      have hmem := Result.forM_eq_ok hsources e he
      simp only [hsrc, Option.bind_some] at hmem
      split at hmem
      swap
      · cases hmem
      rename_i hcontains
      obtain ⟨k, hk⟩ := List.getElem?_of_mem (List.contains_iff_mem.mp hcontains)
      obtain ⟨step, hstepk, hid, hmemout⟩ := draft.step hs rfl hroot hchildren hp hk hq hpart hout
      have hchild : (s.childrenOf p)[k]? = some (r'.owner, q) := by
        rw [Scene.childrenOf_getElem? hs hp, hk, Option.bind_some, hq, Option.map_some]
      have hlookup := Scene.lookup_compiledNames (Scene.checkNames_nodup hnames).1 hchild
      rw [Process.key, Process.isStep, hpart, if_pos rfl] at hlookup
      have hbound : s.output? r' = some o := by rw [Scene.output?, hq, Option.bind_some, ho]
      refine ⟨_, _, hsrc, htext, ?_⟩
      rw [OutputSource.text, Option.elim_some, hlookup, Option.getD_some,
        show stepName p.name k q.name =
        PartTree.stepId step by rw [hid, show (Scene.rootTask p doc).path = p.name from rfl, hstem]]
      exact .output hk hbound hstepk hmemout

namespace Sample

def delivering : List Doc :=
  let deliver (id source : String) : Doc :=
    .list [.str "set_output", .str id, .str "y", .list [.str "out", .str source, .str "o"]]
  [toolStep "s" "a" "head", toolStep "t" "b" "tail", give "s" "v", give "t" "v", newWorkflow "first"
    ["s"], newWorkflow "whole" ["first", "t"], deliver "first" "s", deliver "whole" "t"]

def sources (p : Process) : List (String × Option (Option String × String × Option OutputRef)) :=
  p.outputs.map fun e =>
    (e.2.facts.name, e.2.source.map fun src => (src.step, src.name, src.output))

def partOf (p : Process) : Option StepPart :=
  match p.content with
  | .step part => some part
  | .workflow _ => none

variable {p : Process}

theorem content_of_partOf (h : partOf p = some part) : p.content = .step part := by
  cases hcontent : p.content <;> simp_all [partOf]

theorem source_of_sources (h : sources p = [(n, some (some m, o, some r))]) :
    (p.outputs.map (·.2.facts.name)) = [n] ∧ ∃ e ∈ p.outputs, e.2.facts.name = n ∧
      e.2.source = some ⟨some m, o, some r⟩ := by
  obtain ⟨e, hall, heq⟩ := map_eq_singleton_iff.mp h
  obtain ⟨hname, hmap⟩ := Prod.mk.inj heq
  obtain ⟨⟨_, _, _⟩, hsrc, hparts⟩ := Option.map_eq_some_iff.mp hmap
  cases hparts
  exact ⟨by rw [hall, map_singleton, hname], e, by rw [hall]; exact mem_cons_self, hname, hsrc⟩

end Sample

open Sample in
theorem declared_outputs_resolve_delivering :
    ∃ tree w e src text, compiled (scene delivering) 3 = some tree ∧
      (scene delivering).process? 3 = some w ∧ e ∈ w.outputs ∧
      e.2.source = some src ∧ outputSource tree.part.cwl e.2.facts.name = some text ∧
      (scene delivering).Resolves w tree src text := by
  have hall : (∀ c ∈ delivering, (Command.ofDoc c).isPublic = true) ∧
      (∀ p ∈ (scene delivering).steps 3, Path.stem p.name = p.name) ∧
      ((((scene delivering).steps 3).flatMap Scene.toolEntries).map (·.1)).Nodup ∧
      ((compiled (scene delivering) 3).any fun tree => !tree.subs.isEmpty) = true ∧
      ((scene delivering).process? 3).any (fun w =>
      sources w = [("y", some (some "b", "o", some ⟨1, "o"⟩))] ∧
        Path.stem w.name = w.name) = true ∧
      ((scene delivering).process? 1).any (fun p => p.name = "b" ∧
        (partOf p).any fun part => "o" ∈ outputTexts part.tool) = true := by decide +kernel
  obtain ⟨hpublic, hstem, hnodup, htree, hw, hq⟩ := hall
  obtain ⟨tree, htree, hsubs⟩ := (Option.any_eq_true _ _).mp htree
  obtain ⟨w, hw, hsources⟩ := (Option.any_eq_true _ _).mp hw
  obtain ⟨q, hq, hpart⟩ := (Option.any_eq_true _ _).mp hq
  obtain ⟨hsources, hname⟩ := of_decide_eq_true hsources
  obtain ⟨hqname, hpart⟩ := of_decide_eq_true hpart
  obtain ⟨part, hpart, hout⟩ := (Option.any_eq_true _ _).mp hpart
  have houtputs := @declared_outputs_resolve session delivering hpublic
  rw [build_eq_scene] at houtputs
  obtain ⟨j, w', hj, hw', hresolve⟩ := houtputs (.of_nodup hstem hnodup) (outcome_compiled htree)
    (show tree.at? [] = some tree from rfl) (by simpa using hsubs)
  cases hj
  cases hw.symm.trans hw'
  obtain ⟨hnames, e, he, hename, hsrc⟩ := source_of_sources hsources
  obtain ⟨src, text, hsrc', htext, hres⟩ := hresolve e he
    { names := by rw [hnames]; exact List.nodup_singleton _
      plain := by rw [hename]; decide
      input := fun n h => by cases hsrc.symm.trans h
      output := fun n o r h => by
        cases hsrc.symm.trans h
        exact ⟨rfl, hname, q, part, hq, hqname, content_of_partOf hpart, of_decide_eq_true hout⟩ }
  exact ⟨tree, w, e, src, text, htree, hw, he, hsrc', htext, hres⟩

end Assembly

end WorkflowInference
