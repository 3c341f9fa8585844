import WorkflowInference.Proofs.Compile.Inferred

/-!
Where the inputs of steps come from in the end. A source is followed through the documents of a
compiled workflow: from an input of a workflow outwards to what the step that runs it takes, and
from an output of a workflow inwards to the output of a step that it names, until a tool or the root
is reached.
-/
namespace WorkflowInference

open Entries Result Namespaces List Option

variable {p q : PartTree} {ts : List PartTree} {ids : List String} {id : String}
variable {s o : String} {n m : Nat}

namespace Text

theorem stripStart?_eq_some : stripStart? s pre = some rest ↔ s = pre ++ rest := by
  rw [stripStart?, map_eq_some_iff, ← String.toList_inj, String.toList_append]
  constructor
  · rintro ⟨cs, hcs, rfl⟩
    rw [String.toList_ofList]
    exact after?_eq_some.mp hcs
  · intro h
    exact ⟨rest.toList, after?_eq_some.mpr h, String.ofList_toList⟩

end Text

namespace Compile

/-- Where a source leads: to an output of the tool at a path of places, or to an input of the
workflow. -/
inductive Origin where
  | output (path : List Nat) (out : String)
  | input (name : String)
  deriving DecidableEq

def stepIds (cwl : Doc) : List String :=
  (((under? cwl "steps").bind Doc.list?).getD []).map PartTree.stepId

def outputSource (cwl : Doc) (o : String) : Option String :=
  ((((under? cwl "outputs").bind Doc.map?).bind (get? · o)).bind
    (under? · "outputSource")).bind Doc.str?

namespace PartTree

mutual

/-- The output of a tool that an output of a part comes from, with the path of the tool. -/
def provenance : PartTree → String → Option (List Nat × String)
  | .node p [], o => if o ∈ outputTexts p.cwl then some ([], o) else none
  | .node p (t :: ts), o => (outputSource p.cwl o).bind (amongSteps (t :: ts) (stepIds p.cwl) 0)

def amongSteps : List PartTree → List String → Nat → String → Option (List Nat × String)
  | t :: ts, id :: ids, n, s =>
    match Text.stripStart? s (id ++ "/") with
    | some o => (provenance t o).map fun x => (n :: x.1, x.2)
    | none => amongSteps ts ids (n + 1) s
  | _, _, _, _ => none

end

def sourceAt (q : PartTree) (i : Nat) (a : String) : Option String :=
  (q.bindingAt i a).bind fun v => (sourceOf v).str?

/-- Where a source in the document of a workflow leads: inwards to a tool, or to an input of the
workflow. -/
def follow (q : PartTree) (s : String) : Option Origin :=
  match amongSteps q.subs (stepIds q.part.cwl) 0 s with
  | some x => some (.output x.1 x.2)
  | none => if q.IsInput (.str s) then some (.input s) else none

/-- Where an input of a step comes from. The step stands in the workflow at a path; an input of that
workflow is followed outwards. -/
def origin : PartTree → List Nat → Nat → String → Option Origin
  | q, [], i, a => (q.sourceAt i a).bind q.follow
  | q, j :: js, i, a => (q.subs[j]?).bind fun p => (p.origin js i a).bind fun
    | .output path out => some (.output (j :: path) out)
    | .input name => (q.sourceAt j name).bind q.follow

theorem amongSteps_at (ht : ts[m]? = some t) (hid : ids[m]? = some id)
    (hs : Text.stripStart? s (id ++ "/") = some o)
    (hbefore : ∀ k < m, ∀ x, ids[k]? = some x → Text.stripStart? s (x ++ "/") = none) :
    amongSteps ts ids n s = (t.provenance o).map fun x => ((n + m) :: x.1, x.2) := by
  induction m generalizing ts ids n with
  | zero =>
    cases ts with
    | nil => cases ht
    | cons u ts =>
      cases ids with
      | nil => cases hid
      | cons x ids =>
        cases ht
        cases hid
        rw [amongSteps, hs]
        rfl
  | succ m ih =>
    cases ts with
    | nil => cases ht
    | cons u ts =>
      cases ids with
      | nil => cases hid
      | cons x ids =>
        rw [amongSteps, hbefore 0 (Nat.succ_pos m) x rfl]
        have hrest := ih (n := n + 1) ht hid fun k hk y hy => hbefore (k + 1) (by omega) y hy
        rw [show n + (m + 1) = n + 1 + m by omega]
        exact hrest

theorem amongSteps_none (h : ∀ id ∈ ids, Text.stripStart? s (id ++ "/") = none) :
    amongSteps ts ids n s = none := by
  induction ts generalizing ids n with
  | nil => rfl
  | cons t ts ih =>
    cases ids with
    | nil => rfl
    | cons id ids =>
      rw [amongSteps, h id mem_cons_self]
      exact ih fun x hx => h x (mem_cons_of_mem _ hx)

end PartTree

theorem mem_outputTexts_of_outputSource (h : outputSource cwl o = some s) :
    o ∈ outputTexts cwl := by
  obtain ⟨v, hv, -⟩ := bind_eq_some_iff.mp h
  obtain ⟨e, he, -⟩ := bind_eq_some_iff.mp hv
  obtain ⟨outs, houts, he⟩ := bind_eq_some_iff.mp he
  rw [outputTexts, houts, getD_some]
  exact mem_map.mpr ⟨_, mem_of_get? he, rfl⟩

theorem PartTree.mem_outputTexts_of_provenance (h : q.provenance o = some x) :
    o ∈ outputTexts q.part.cwl := by
  cases q with
  | node p ts =>
    cases ts with
    | nil =>
      rw [provenance] at h
      split at h
      · rename_i hmem
        exact hmem
      · cases h
    | cons t ts =>
      rw [provenance] at h
      obtain ⟨s, hs, -⟩ := bind_eq_some_iff.mp h
      exact mem_outputTexts_of_outputSource hs

theorem PartTree.origin_input (h : q.origin is i a = some (.input name)) :
    q.IsInput (.str name) := by
  have hfollow : ∀ {s}, q.follow s = some (.input name) → q.IsInput (.str name) := by
    intro s hs
    unfold PartTree.follow at hs
    split at hs
    · cases hs
    · split at hs
      · cases hs
        assumption
      · cases hs
  cases is with
  | nil =>
    obtain ⟨s, -, hs⟩ := bind_eq_some_iff.mp h
    exact hfollow hs
  | cons j is =>
    obtain ⟨p, -, h⟩ := bind_eq_some_iff.mp h
    obtain ⟨o, -, h⟩ := bind_eq_some_iff.mp h
    cases o with
    | output path out => cases h
    | input arg =>
      obtain ⟨s, -, hs⟩ := bind_eq_some_iff.mp h
      exact hfollow hs

section Once

variable {set : Setting} {run : OnceRun sub set t r}

theorem PlacedRun.stepIds_spec (h : PlacedRun run) (hid : (stepIds r.tree.part.cwl)[m]? = some id) :
    id = stepName run.scope.stem m (run.scope.keys.getD m "") := by
  change (r.tree.steps.map PartTree.stepId)[m]? = some id at hid
  rw [getElem?_map, map_eq_some_iff] at hid
  obtain ⟨step, hstep, rfl⟩ := hid
  exact (h.steps_spec hstep).2.1

theorem PlacedRun.stepIds_getElem? (h : PlacedRun run) (hm : m < run.scope.keys.length) :
    (stepIds r.tree.part.cwl)[m]? =
      some (stepName run.scope.stem m (run.scope.keys.getD m "")) := by
  obtain ⟨step, hstep⟩ := run.exists_step hm
  change (r.tree.steps.map PartTree.stepId)[m]? = _
  rw [getElem?_map, hstep, map_some, (h.steps_spec hstep).2.1]

theorem PlacedRun.amongSteps_output (h : PlacedRun run) (hm : m < run.scope.keys.length)
    (hp : r.tree.subs[m]? = some p) (o : String) :
    PartTree.amongSteps r.tree.subs (stepIds r.tree.part.cwl) 0 (stepName run.scope.stem m
      (run.scope.keys.getD m "") ++ "/" ++ o) = (p.provenance o).map fun x => (m :: x.1, x.2) := by
  rw [PartTree.amongSteps_at hp (h.stepIds_getElem? hm) (Text.stripStart?_eq_some.mpr rfl),
    Nat.zero_add]
  intro k hk x hx
  rw [eq_none_iff_forall_not_mem]
  intro rest hrest
  have heq := Text.stripStart?_eq_some.mp hrest
  rw [h.stepIds_spec hx, String.append_assoc, String.append_assoc] at heq
  have := (stepName_append_inj heq).1
  omega

theorem PlacedRun.amongSteps_input (h : PlacedRun run) (i : Nat) (a : String) :
    PartTree.amongSteps r.tree.subs (stepIds r.tree.part.cwl) 0
      (stepName run.scope.stem i (run.scope.keys.getD i "") ++ sep ++ a) = none := by
  refine PartTree.amongSteps_none fun id hid => ?_
  obtain ⟨m, hm⟩ := getElem?_of_mem hid
  rw [eq_none_iff_forall_not_mem]
  intro rest hrest
  have heq := Text.stripStart?_eq_some.mp hrest
  rw [h.stepIds_spec hm, String.append_assoc, String.append_assoc] at heq
  obtain ⟨rfl, heq⟩ := stepName_append_inj heq
  have hchars := congrArg String.toList heq
  simp [toList_sep] at hchars

theorem OnceRun.stated_eq_nil (run : OnceRun sub set t r) (concl : Concluded run.scope run.last r)
    (hno : (under? t.yml "outputs").getD (.map []) = .map []) : concl.stated = [] := by
  by_contra hne
  have hdeclared := run.outputs_declared concl hne
  rw [run.yml] at hdeclared
  rw [hdeclared, getD_some, Doc.map.injEq] at hno
  exact hne hno

section

variable (h : PlacedRun run) (hno : (under? t.yml "outputs").getD (.map []) = .map [])
  (hm : m < run.scope.keys.length)

include h hno hm

theorem PlacedRun.output_brought (htool : run.last.tools[m]? = some tool)
    (ho : o ∈ outputTexts tool.cwl) :
    ∃ v x scattered, ((under? r.tree.part.cwl "outputs").bind Doc.map?).bind
        (get? · (stepName run.scope.stem m (run.scope.keys.getD m "") ++ sep ++ o)) = some v ∧
      x ∈ run.last.outputs.getD m [] ∧ x.1.text = o ∧
      (run.last.step m).holds "scatter" = .ok scattered ∧
      ∃ k, outputOf (stepName run.scope.stem m (run.scope.keys.getD m "")) scattered x =
      .ok (k, v) := by
  obtain ⟨concl⟩ := run.concluded
  have halong := Draft.Alongside.of_core concl.drawn_core
  obtain ⟨-, hbrought⟩ := workflowOutputs_spec concl.bringing
  have hstated := run.stated_eq_nil concl hno
  -- the output is there,
  have hhas : has (update concl.stated concl.brought.2)
      (stepName run.scope.stem m (run.scope.keys.getD m "") ++ sep ++ o) := by
    rw [← h.placed.outs m hm tool htool] at ho
    obtain ⟨x, hx, rfl⟩ := mem_map.mp ho
    rw [has_update, ← h.placed.named m hm tool htool]
    refine .inr (workflowOutputs_has concl.bringing hm (by rw [halong.tools, htool]) ?_)
    rw [halong.outputs]
    exact mem_map_of_mem hx
  obtain ⟨v, hv⟩ := isSome_iff_exists.mp hhas
  -- and what stands there was brought up from the step
  have hmem := mem_of_get? hv
  rw [hstated] at hmem
  rcases mem_update_of_str (fun g hg => (hbrought g hg).key) hmem with hmem | hmem
  · cases hmem
  obtain ⟨m', tool', x, scattered, hm', htool', hx, hscattered, hout⟩ := hbrought _ hmem
  rw [halong.tools] at htool'
  rw [h.placed.named m' hm' tool' htool'] at hout
  have hkey := (outputOf_spec hout).1
  rw [Doc.str.injEq, String.append_assoc, String.append_assoc] at hkey
  obtain ⟨rfl, hkey⟩ := stepName_append_inj hkey
  rw [halong.outputs] at hx
  rw [Draft.step_congr (Draft.steps_of_core concl.drawn_core)] at hscattered
  refine ⟨v, x, scattered, ?_, hx, ?_, hscattered, _, hout⟩
  · rw [concl.part, under?_map, concl.outputs, bind_some, Doc.map?, bind_some, hv]
  · have hchars := congrArg String.toList hkey
    rw [← String.toList_inj]
    simpa using hchars.symm

theorem PlacedRun.outputSource_eq (htool : run.last.tools[m]? = some tool)
    (ho : o ∈ outputTexts tool.cwl) :
    outputSource r.tree.part.cwl
      (stepName run.scope.stem m (run.scope.keys.getD m "") ++ sep ++ o) =
      some (stepName run.scope.stem m (run.scope.keys.getD m "") ++ "/" ++ o) := by
  obtain ⟨v, x, scattered, hv, -, rfl, -, k, hout⟩ := h.output_brought hno hm htool ho
  rw [outputSource, hv, bind_some, (outputOf_spec hout).2]
  rfl

theorem PlacedRun.provenance_eq (hp : r.tree.subs[m]? = some p) (ho : o ∈ outputTexts p.part.cwl) :
    r.tree.provenance (stepName run.scope.stem m (run.scope.keys.getD m "") ++ sep ++ o) =
      (p.provenance o).map fun x => (m :: x.1, x.2) := by
  obtain ⟨tool, p', htool, hp', hcwl⟩ := run.runAt_eq hm
  rw [hp] at hp'
  cases hp'
  rw [hcwl] at ho
  have hsource := h.outputSource_eq hno hm htool ho
  have houtput := h.amongSteps_output hm hp o
  cases htree : r.tree with
  | node part subs =>
    rw [htree] at hsource houtput hp
    cases subs with
    | nil => cases hp
    | cons q qs =>
      change outputSource part.cwl _ = _ at hsource
      rw [PartTree.provenance, hsource]
      exact houtput

end

end Once

section Compiled

variable {set : Setting} {a : String}

theorem StepAt.sourceAt_last {run : OnceRun sub set t r} {P : Nat → Draft → Prop} {Q : Draft → Prop}
    {text : String} {v : Doc} (place : StepAt run P i) (last : LastSupply place.here.head Q a)
    (hsteps : last.after.steps = (last.before.bind i a v).steps) (hv : sourceOf v = .str text) :
    r.tree.sourceAt i a = some text := by
  rw [PartTree.sourceAt, place.bindingAt_bind last hsteps, bind_some, hv]
  rfl

theorem OnceRun.subs_ne (run : OnceRun sub set t r) : r.tree.subs ≠ [] := by
  have hlen := run.subs_length
  have hkeys := (openWorkflow_opens run.opening).keys_ne
  intro hnil
  rw [hnil] at hlen
  exact hkeys (length_eq_zero_iff.mp hlen.symm)

theorem OnceRun.cls (run : OnceRun sub set t r) :
    under? r.tree.part.cwl "class" = some (.str "Workflow") := by
  obtain ⟨concl⟩ := run.concluded
  rw [concl.part, under?_map, concl.rest "class" (by decide), run.progress.tree "class" (by decide)]
  exact (openWorkflow_opens run.opening).cls

theorem Faithful.cls (h : Faithful set n t r) :
    under? r.tree.part.cwl "class" = some (.str "Workflow") := by
  induction h using Faithful.induction with
  | step _ run => exact run.cls

theorem Faithful.subs_ne (h : Faithful set n t r) : r.tree.subs ≠ [] := by
  induction h using Faithful.induction with
  | step _ run => exact run.subs_ne

theorem SubRun.mem_required {c : Scope} {key : String} {d e : Draft}
    {head : StepRun sub c i key d e} (inner : SubRun head)
    (hcls : under? inner.result.tree.part.cwl "class" = some (.str "Workflow"))
    (ha : inner.result.tree.IsInput (.str a)) : a ∈ head.required := by
  obtain ⟨ins, hins, hget⟩ := ha
  have hparams := head.params_eq
  rw [inner.tool] at hparams
  dsimp only at hparams
  rw [hins] at hparams
  have hrequiring := head.requiring
  rw [← some.inj hparams, inner.tool] at hrequiring
  obtain ⟨cls, hcls', keys, hkeys, h⟩ := of_bind₂ hrequiring
  have hworkflow : cls = .str "Workflow" := some.inj ((field_eq_ok.mp hcls').symm.trans hcls)
  subst hworkflow
  cases hkeys
  rw [at?_str] at hget
  dsimp only at h
  rw [if_neg (by simp), if_pos (by simp)] at h
  obtain ⟨b, hb, hname⟩ := mem_mapM h (has_iff_mem.mp hget)
  cases hname
  exact hb

end Compiled

end Compile

end WorkflowInference
