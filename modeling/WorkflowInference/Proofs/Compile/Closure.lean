import Mathlib.Logic.Relation
import WorkflowInference.Proofs.Compile.Sources

/-!
Where the compiled steps of a workflow stand. Steps that run workflows or known tools stand under
names that tell their places, and the same names are used among the outputs, so an output that is
brought up belongs to one step. Compiled workflows without explicit edges are closed and free of
cycles: every input of a step takes an input of the workflow or an output of an earlier step, and so
what a step needs comes before it.
-/
namespace WorkflowInference.Compile

open Entries Result Workflow PartTree
open List hiding getD

def toolIds (yml : Doc) : List StepId :=
  (opened yml).elim [] fun o => (range o.keys.length).filterMap fun i =>
    if isSubKey (o.keys.getD i "") then none
    else (noteAt o.notes i (o.keys.getD i "")).toOption.map fun note =>
      ⟨Path.stem (o.keys.getD i ""), note.2⟩

theorem mem_toolIds (ho : opened yml = some o) (hkey : o.keys[i]? = some key)
    (htool : isSubKey key = false) (hnote : noteAt o.notes i key = .ok (note, space)) :
    ⟨Path.stem key, space⟩ ∈ toolIds yml := by
  have hget : o.keys.getD i "" = key := getD_of_getElem? hkey
  rw [toolIds, ho]
  refine mem_filterMap.mpr ⟨i, mem_range.mpr (List.getElem?_eq_some_iff.mp hkey).1, ?_⟩
  rw [hget, htool, hnote]
  rfl

def ToolsNamed (set : Setting) : Prop := ∀ e ∈ set.tools, Path.stem e.2.runPath = e.1.stem

/-- The steps that are compiled so far stand under names that tell their places, with the outputs of
what they run. -/
structure Placed (c : Scope) (o : Opening) (j : Nat) (d : Draft) : Prop where
  notes : ∀ i key, c.keys[i]? = some key → isSubKey key = false →
    noteAt d.notes i key = noteAt o.notes i key
  named : ∀ m < j, ∀ tool, d.tools[m]? = some tool →
    outStepName c m tool = stepName c.stem m (c.keys.getD m "")
  outs : ∀ m < j, ∀ tool, d.tools[m]? = some tool →
    (d.outputs.getD m []).map (·.1.text) = outputTexts tool.cwl
  parts : ∀ m < j, ∀ tool, d.tools[m]? = some tool → ∃ p, d.parts[m]? = some p ∧
    p.part.cwl = tool.cwl

section Step

variable {o : Opening} {start d e : Draft}

theorem outputSigs_texts (h : outputSigs outs = .ok sigs) :
    sigs.map (·.1.text) = outs.map (·.1.text) := by
  have hall := mapM_eq_ok h
  clear h
  induction hall with
  | nil => rfl
  | @cons e f es fs hef _ ih =>
    obtain ⟨sig, -, hef⟩ := of_bind hef
    rw [map_cons, map_cons, ih, ← pure_eq_ok.mp hef]

variable (run : StepRun sub c i key d e)

include run

theorem StepRun.notes_noteAt (htool : isSubKey key' = false) :
    noteAt e.notes j key' = noteAt d.notes j key' :=
  noteAt_congr (run.notes_kept (.inr htool))

theorem StepRun.tools_getElem? (hprog : Progress start i d) {m : Nat} {tool : Tool} (hm : m < i + 1)
    (htool : e.tools[m]? = some tool) :
    m < i ∧ d.tools[m]? = some tool ∨ m = i ∧ run.tool = tool := by
  obtain ⟨-, -, htools⟩ := run.entered
  rcases Nat.lt_succ_iff_lt_or_eq.mp hm with hm | rfl
  · rw [htools, getElem?_append_left (by rw [hprog.tools]; exact hm)] at htool
    exact .inl ⟨hm, htool⟩
  · rw [htools, getElem?_append_right (Nat.le_of_eq hprog.tools), hprog.tools] at htool
    exact .inr ⟨rfl, by simpa using htool⟩

variable (hreg : ToolsNamed c.setting ∨ (isSubKey key = false → run.space = globalSpace))
  (hknown : isSubKey key = false → c.setting.tools.has ⟨Path.stem key, run.space⟩)

include hreg hknown

theorem StepRun.outStepName_eq (hkey : c.keys.getD i "" = key) :
    outStepName c i run.tool = stepName c.stem i key := by
  unfold outStepName
  dsimp only
  rw [hkey, if_pos]
  rcases run.brought_cases with ⟨⟨inner⟩⟩ | ⟨⟨tool⟩⟩
  · have hsub : Text.endsWith key ".wic" := inner.isSub
    rw [hsub, Bool.true_or, Bool.true_or]
  · have hhas := hknown tool.isTool
    rcases hreg with hreg | hspace
    · have hstem : Path.stem run.tool.runPath = Path.stem key :=
        hreg (⟨Path.stem key, run.space⟩, run.tool) (Registry.mem_of_get? (tool.registered hhas))
      rw [hstem, decide_eq_true rfl, Bool.or_true]
    · rw [hspace tool.isTool] at hhas
      rw [hhas, Bool.or_true, Bool.true_or]

theorem Placed.step (h : Placed c o i d) (hprog : Progress start i d)
    (hkey : c.keys[i]? = some key) :
    Placed c o (i + 1) e := by
  have hget : c.keys.getD i "" = key := getD_of_getElem? hkey
  obtain ⟨-, hparts, -⟩ := run.entered
  obtain ⟨p, hp, hcwl⟩ := run.brought_parts
  obtain ⟨outs, sigs, houts, hsigs, houtputs⟩ := run.outputs_eq
  refine ⟨?_, ?_, ?_, ?_⟩
  · intro j key' hkey' htool
    rw [run.notes_noteAt htool]
    exact h.notes j key' hkey' htool
  · intro m hm tool htool
    rcases run.tools_getElem? hprog hm htool with ⟨hm, hold⟩ | ⟨rfl, rfl⟩
    · exact h.named m hm tool hold
    · rw [run.outStepName_eq hreg hknown hget, hget]
  · intro m hm tool htool
    rcases run.tools_getElem? hprog hm htool with ⟨hm, hold⟩ | ⟨rfl, rfl⟩
    · have hsame : e.outputs.getD m [] = d.outputs.getD m [] := by
        rw [houtputs, getD_eq_getElem?_getD, getElem?_append_left (by rw [hprog.outputs]; exact hm),
          ← getD_eq_getElem?_getD]
      rw [hsame]
      exact h.outs m hm tool hold
    · have hsame : e.outputs.getD m [] = sigs := by
        rw [houtputs, getD_eq_getElem?_getD, getElem?_append_right (Nat.le_of_eq hprog.outputs),
          hprog.outputs]
        simp
      rw [hsame, outputSigs_texts hsigs, outputTexts_eq houts]
  · intro m hm tool htool
    rcases run.tools_getElem? hprog hm htool with ⟨hm, hold⟩ | ⟨rfl, rfl⟩
    · obtain ⟨q, hq, hqcwl⟩ := h.parts m hm tool hold
      refine ⟨q, ?_, hqcwl⟩
      rw [hparts, hp, getElem?_append_left (by rw [hprog.parts]; exact hm), hq]
    · refine ⟨p, ?_, hcwl⟩
      rw [hparts, hp, getElem?_append_right (Nat.le_of_eq hprog.parts), hprog.parts]
      simp

end Step

namespace PartTree

def steps (q : PartTree) : List Doc := ((under? q.part.cwl "steps").bind Doc.list?).getD []

def stepId (step : Doc) : String := ((under? step "id").bind Doc.str?).getD ""

def IsInput (q : PartTree) (x : Doc) : Prop :=
  ∃ ins, under? q.part.cwl "inputs" = some (.map ins) ∧ (Entries.at? ins x).isSome

def IsOutput (q : PartTree) (m : Nat) (x : Doc) : Prop :=
  ∃ step p o, q.steps[m]? = some step ∧ q.subs[m]? = some p ∧ o ∈ outputTexts p.part.cwl ∧
    x = .str (stepId step ++ "/" ++ o)

instance (q : PartTree) (x : Doc) : Decidable (q.IsInput x) :=
  decidable_of_iff
      (((under? q.part.cwl "inputs").bind Doc.map?).any (fun ins => (Entries.at? ins x).isSome)) (by
    rw [Option.any_eq_true]
    constructor
    · rintro ⟨ins, hins, hx⟩
      obtain ⟨v, hv, hmap⟩ := Option.bind_eq_some_iff.mp hins
      cases v <;> simp_all [Doc.map?, IsInput]
    · rintro ⟨ins, hins, hx⟩
      exact ⟨ins, by rw [hins]; rfl, hx⟩)

instance (q : PartTree) (m : Nat) (x : Doc) : Decidable (q.IsOutput m x) :=
  decidable_of_iff ((q.steps[m]?).any (fun step => (q.subs[m]?).any fun p =>
      (outputTexts p.part.cwl).any fun o => x == .str (stepId step ++ "/" ++ o))) (by
    simp only [Option.any_eq_true, any_eq_true, Doc.beq_str_iff]
    constructor
    · rintro ⟨step, hstep, p, hp, o, ho, hx⟩
      exact ⟨step, p, o, hstep, hp, ho, hx⟩
    · rintro ⟨step, p, o, hstep, hp, ho, hx⟩
      exact ⟨step, hstep, p, hp, o, ho, hx⟩)

def Declares (q : PartTree) (e : Doc × Doc) : Prop :=
  ∃ es, under? q.part.yml "outputs" = some (.map es) ∧ e ∈ es

end PartTree

variable {c : Scope}

theorem stepId_eq (h : get? fs "id" = some (.str name)) : stepId (.map fs) = name := by
  rw [stepId, under?_map, h]
  rfl

theorem nameStep_spec (h : nameStep c d m = .ok step) :
    ∃ note space fs, noteAt d.notes m (c.keys.getD m "") = .ok (note, space) ∧ step = .map fs ∧
      get? fs "id" = some (.str (nameAt c m (c.keys.getD m "") space)) ∧
      bindings step = bindings (d.step m) := by
  obtain ⟨⟨note, space⟩, hnote, id, -, es, hes, h⟩ := of_bind₃ h
  rw [entries_eq_ok] at hes
  refine ⟨note, space, _, hnote, (pure_eq_ok.mp h).symm, by simp [get?], ?_⟩
  rw [← pure_eq_ok.mp h, hes]
  refine bindings_congr ?_
  simp [get?, get?_remove_ne]

theorem nameAt_eq (h : isSubKey key = false → c.setting.tools.has ⟨Path.stem key, space⟩) :
    nameAt c i key space = stepName c.stem i key := by
  unfold nameAt
  rw [if_pos]
  cases hsub : isSubKey key with
  | true => exact Bool.true_or _
  | false => rw [h hsub, Bool.or_true]

section Once

variable {set : Setting} {run : OnceRun sub set t r}

structure PlacedRun (run : OnceRun sub set t r) : Prop where
  placed : Placed run.scope run.start run.scope.keys.length run.last
  known : ∀ id ∈ toolIds t.yml, set.tools.has id

variable {m : Nat} {step x : Doc}

theorem StepIn.mem_toolIds (here : StepIn run m d e) (htool : isSubKey here.key = false) :
    ⟨Path.stem here.key, here.head.space⟩ ∈ toolIds t.yml :=
  Compile.mem_toolIds run.opened here.key_eq htool here.noted

theorem placedRun (run : OnceRun sub set t r)
    (hreg : ToolsNamed set ∨ ∀ id ∈ toolIds t.yml, id.space = globalSpace)
    (hknown : ∀ id ∈ toolIds t.yml, set.tools.has id) : PlacedRun run := by
  refine ⟨run.keeps_steps (P := Placed run.scope run.start) ?_ ⟨fun _ _ _ _ =>
    rfl, by simp, by simp, by simp⟩, hknown⟩
  intro j d e here hd
  exact hd.step here.head (hreg.imp_right fun h htool => h _ (here.mem_toolIds htool))
    (fun htool => hknown _ (here.mem_toolIds htool)) here.progress here.key_eq

theorem Concluded.tree_steps (concl : Concluded c d r) : r.tree.steps = concl.named := by
  rw [PartTree.steps, concl.part, under?_map, concl.steps]
  rfl

theorem OnceRun.naming_at (run : OnceRun sub set t r) (hstep : r.tree.steps[m]? = some step) :
    m < run.scope.keys.length ∧ nameStep run.scope run.last m = .ok step := by
  obtain ⟨concl⟩ := run.concluded
  rw [concl.tree_steps] at hstep
  obtain ⟨m', hm', hname⟩ := getElem?_mapM concl.naming hstep
  obtain ⟨hlt, heq⟩ := List.getElem?_eq_some_iff.mp hm'
  rw [getElem_range] at heq
  subst heq
  rw [length_range] at hlt
  exact ⟨hlt, hname⟩

theorem PlacedRun.steps_spec (h : PlacedRun run) (hstep : r.tree.steps[m]? = some step) :
    m < run.scope.keys.length ∧ stepId step = stepName run.scope.stem m (run.scope.keys.getD m "") ∧
      bindings step = bindings (run.last.step m) := by
  obtain ⟨hlt, hname⟩ := run.naming_at hstep
  obtain ⟨note, space, fs, hnote, rfl, hid, hbindings⟩ := nameStep_spec hname
  refine ⟨hlt, (stepId_eq hid).trans (nameAt_eq fun hsub => ?_), hbindings⟩
  have hkey := getElem?_getD hlt ""
  rw [h.placed.notes m _ hkey hsub] at hnote
  exact h.known _ (mem_toolIds run.opened hkey hsub hnote)

theorem OnceRun.exists_step (run : OnceRun sub set t r) (hm : m < run.scope.keys.length) :
    ∃ step, r.tree.steps[m]? = some step := by
  obtain ⟨concl⟩ := run.concluded
  have hlen : concl.named.length = run.scope.keys.length := by
    rw [length_mapM concl.naming, length_range]
  exact ⟨_, by rw [concl.tree_steps, getElem?_eq_getElem (by rw [hlen]; exact hm)]⟩

theorem PlacedRun.isOutput (h : PlacedRun run) (hm : m < run.scope.keys.length)
    (htool : run.last.tools[m]? = some tool) (ho : o ∈ outputTexts tool.cwl) :
    r.tree.IsOutput m
      (.str (stepName run.scope.stem m (run.scope.keys.getD m "") ++ "/" ++ o)) := by
  obtain ⟨concl⟩ := run.concluded
  obtain ⟨step, hstep⟩ := run.exists_step hm
  obtain ⟨-, hid, -⟩ := h.steps_spec hstep
  obtain ⟨p, hp, hcwl⟩ := h.placed.parts m hm tool htool
  exact ⟨step, p, o, hstep, by rw [concl.subs, hp], by rw [hcwl]; exact ho, by rw [hid]⟩

theorem OnceRun.isInput (run : OnceRun sub set t r)
    (h : run.last.ownInputs.includes x = .ok true ∨ ∃ k, x = .str k ∧ has run.last.inputs k) :
    r.tree.IsInput x := by
  obtain ⟨concl⟩ := run.concluded
  refine ⟨_, by rw [concl.part]; exact concl.inputs, ?_⟩
  rcases h with h | ⟨k, rfl, h⟩
  · rw [concl.own_eq] at h
    simp only [Doc.includes] at h
    split at h
    · exact isSome_at?_update (Except.ok.inj h)
    · cases h
  · rw [at?_str]
    exact has_update.mpr (.inr h)

theorem PlacedRun.isOutput_inj (h : PlacedRun run) (hm : r.tree.IsOutput m x)
    (hn : r.tree.IsOutput n x) : m = n := by
  obtain ⟨s, -, o, hs, -, -, rfl⟩ := hm
  obtain ⟨s', -, o', hs', -, -, heq⟩ := hn
  rw [(h.steps_spec hs).2.1, (h.steps_spec hs').2.1, Doc.str.injEq,
    String.append_assoc, String.append_assoc] at heq
  exact (stepName_append_inj heq).1

theorem PlacedRun.ids_nodup (h : PlacedRun run) : (r.tree.steps.map stepId).Nodup := by
  rw [List.Nodup, pairwise_iff_getElem]
  intro i j hi hj hij heq
  rw [getElem_map, getElem_map,
    (h.steps_spec (getElem?_eq_getElem (by simpa using hi))).2.1,
    (h.steps_spec (getElem?_eq_getElem (by simpa using hj))).2.1] at heq
  have := (stepName_inj heq).1
  omega

theorem OnceRun.outputs_declared (run : OnceRun sub set t r)
    (concl : Concluded run.scope run.last r) (hne : concl.stated ≠ []) :
    under? r.tree.part.yml "outputs" = some (.map concl.stated) := by
  have hkept : get? run.last.tree "outputs" = under? t.yml "outputs" :=
    (run.progress.tree "outputs" (by decide)).trans
      ((openWorkflow_opens run.opening).kept "outputs" (by decide))
  have hstated := concl.stated_eq
  rw [getD, hkept] at hstated
  rw [run.yml]
  cases hget : under? t.yml "outputs" with
  | none =>
    rw [hget, Option.getD_none, Doc.map.injEq] at hstated
    exact absurd hstated.symm hne
  | some v =>
    rw [hget, Option.getD_some] at hstated
    rw [hstated]

theorem PlacedRun.outputs_generated (h : PlacedRun run)
    (houts : under? r.tree.part.cwl "outputs" = some (.map outs)) (he : e ∈ outs) :
    r.tree.Declares e ∨ ∃ m src, under? e.2 "outputSource" = some src ∧ r.tree.IsOutput m src := by
  obtain ⟨concl⟩ := run.concluded
  rw [concl.part, under?_map, concl.outputs] at houts
  cases houts
  obtain ⟨-, hbrought⟩ := workflowOutputs_spec concl.bringing
  rcases mem_update_of_str (fun g hg => (hbrought g hg).key) he with he | he
  · exact .inl ⟨concl.stated, run.outputs_declared concl (ne_nil_of_mem he), he⟩
  · obtain ⟨m, tool, o, scattered, hm, htool, ho, -, hout⟩ := hbrought e he
    have halong := Draft.Alongside.of_core concl.drawn_core
    rw [halong.tools] at htool
    rw [halong.outputs] at ho
    rw [h.placed.named m hm tool htool] at hout
    refine .inr ⟨m, _, (outputOf_spec hout).2, h.isOutput hm htool ?_⟩
    rw [← h.placed.outs m hm tool htool]
    exact mem_map_of_mem ho

end Once

open Option

structure Joined (c : Scope) (o : Opening) (j : Nat) (d : Draft) : Prop extends Placed c o j d where
  wired : ∀ m < j, ∀ k ∈ keys (bindings (d.step m)), Wired c m d k

section Step

variable {o : Opening} {start d e : Draft}

theorem Joined.step (h : Joined c o i d) (hprog : Progress start i d)
    {run : StepRun sub c i key d e} (hord : OrdinaryStep run) (hkey : c.keys[i]? = some key)
    (hreg : ToolsNamed c.setting)
    (hknown : Workflow.isSubKey key = false → c.setting.tools.has ⟨Path.stem key, run.space⟩)
    (hraw : c.setting.options.allowRaw = false) (hinfer : c.setting.options.noInference = false) :
    Joined c o (i + 1) e := by
  have hframe := run.frame
  refine ⟨h.toPlaced.step run (.inl hreg) hknown hprog hkey, ?_⟩
  intro m hm k hk
  rcases Nat.lt_succ_iff_lt_or_eq.mp hm with hm | rfl
  · have hstep : bindings (e.step m) = bindings (d.step m) := by rw [hframe.others m (by omega)]
    rw [hstep] at hk
    exact (h.wired m hm k hk).mono hframe hstep
  · exact hord.wired hraw hinfer k hk

end Step

namespace PartTree

def Feeds (q : PartTree) (m i : Nat) : Prop :=
  ∃ step arg v, q.steps[i]? = some step ∧ get? (bindings step) arg = some v ∧
    ¬ q.IsInput (sourceOf v) ∧ q.IsOutput m (sourceOf v)

/-- A compiled workflow that refers to nothing that is not there, and is free of cycles. -/
structure Closed (q : PartTree) : Prop where
  ids : (q.steps.map stepId).Nodup
  sources : ∀ i step, q.steps[i]? = some step → ∀ k ∈ keys (bindings step),
    ∃ arg v, k = .str arg ∧ get? (bindings step) arg = some v ∧
      (q.IsInput (sourceOf v) ∨ ∃ m < i, q.IsOutput m (sourceOf v))
  outputs : ∀ outs, under? q.part.cwl "outputs" = some (.map outs) → ∀ e ∈ outs,
    q.Declares e ∨ ∃ m src, under? e.2 "outputSource" = some src ∧ q.IsOutput m src
  acyclic : ∀ i, ¬ Relation.TransGen q.Feeds i i

def dangles (q : PartTree) (i : Nat) (arg : String) : Bool :=
  (q.steps[i]?).any fun step => (get? (bindings step) arg).any fun v =>
    decide (¬ q.IsInput (sourceOf v) ∧ ∀ m < i, ¬ q.IsOutput m (sourceOf v))

theorem Closed.not_dangles {q : PartTree} (h : q.Closed) (i : Nat) (arg : String) :
    q.dangles i arg = false := by
  rw [Bool.eq_false_iff]
  intro hdangles
  obtain ⟨step, hstep, hdangles⟩ := any_eq_true _ _ |>.mp hdangles
  obtain ⟨v, hv, hdangles⟩ := any_eq_true _ _ |>.mp hdangles
  obtain ⟨hin, hout⟩ := of_decide_eq_true hdangles
  obtain ⟨a, w, ha, hw, hsrc⟩ :=
    h.sources i step hstep (.str arg) (List.mem_map.mpr ⟨_, mem_of_get? hv, rfl⟩)
  cases ha
  rw [hv] at hw
  cases hw
  rcases hsrc with hsrc | ⟨m, hm, hsrc⟩
  · exact hin hsrc
  · exact hout m hm hsrc

end PartTree

section Once

variable {set : Setting} {run : OnceRun sub set t r}

structure JoinedRun (run : OnceRun sub set t r) : Prop where
  joined : Joined run.scope run.start run.scope.keys.length run.last
  known : ∀ id ∈ toolIds t.yml, set.tools.has id

variable (h : JoinedRun run)

include h

theorem JoinedRun.placed : PlacedRun run := ⟨h.joined.toPlaced, h.known⟩

theorem JoinedRun.closed_sources
    (hstep : r.tree.steps[i]? = some step) (hk : k ∈ keys (bindings step)) :
    ∃ arg v, k = .str arg ∧ get? (bindings step) arg = some v ∧
      (r.tree.IsInput (sourceOf v) ∨ ∃ m < i, r.tree.IsOutput m (sourceOf v)) := by
  obtain ⟨hi, -, hbindings⟩ := h.placed.steps_spec hstep
  rw [hbindings] at hk ⊢
  obtain ⟨arg, v, rfl, hv, hsrc⟩ := h.joined.wired i hi k hk
  refine ⟨arg, v, rfl, hv, ?_⟩
  generalize sourceOf v = x at hsrc
  cases hsrc with
  | own h => exact .inl (run.isInput (.inl h))
  | input h => exact .inl (run.isInput (.inr ⟨_, rfl, h⟩))
  | output hm htool ho => exact .inr ⟨_, hm, h.placed.isOutput (Nat.lt_trans hm hi) htool ho⟩

theorem JoinedRun.feeds_lt (hfeeds : r.tree.Feeds m i) : m < i := by
  obtain ⟨step, arg, v, hstep, hv, hnot, hout⟩ := hfeeds
  have hmem : Doc.str arg ∈ keys (bindings step) := List.mem_map.mpr ⟨_, mem_of_get? hv, rfl⟩
  obtain ⟨a, w, ha, hw, hsrc⟩ := h.closed_sources hstep hmem
  cases ha
  rw [hv] at hw
  cases hw
  rcases hsrc with hin | ⟨n, hn, hout'⟩
  · exact absurd hin hnot
  · rw [h.placed.isOutput_inj hout hout']
    exact hn

theorem JoinedRun.closed : r.tree.Closed where
  ids := h.placed.ids_nodup
  sources _ _ hstep _ hk := h.closed_sources hstep hk
  outputs _ houts _ he := h.placed.outputs_generated houts he
  acyclic i hcycle := by
    have hlt : ∀ m n, Relation.TransGen r.tree.Feeds m n → m < n := by
      intro m n hmn
      induction hmn with
      | single hfeeds => exact h.feeds_lt hfeeds
      | tail _ hfeeds ih => exact Nat.lt_trans ih (h.feeds_lt hfeeds)
    exact Nat.lt_irrefl i (hlt i i hcycle)

end Once

section Nested

variable {set : Setting} {n : Nat} {t : Task} {r : Compiled}

theorem joinedRun (run : OnceRun (compileAt set n) set t r) (ht : OrdinaryTask t)
    (hun : Unaltered r.tree t.flow) (hn : Unambiguous set (withinIn (n + 1) t.flow))
    (hreg : ToolsNamed set) (hknown : ∀ id ∈ toolIds t.yml, set.tools.has id)
    (hraw : set.options.allowRaw = false) (hinfer : set.options.noInference = false) :
    JoinedRun run := by
  refine ⟨keeps_ordinary run ht hun hn (P := Joined run.scope run.start) ?_ ?_, hknown⟩
  · intro j d e here hord hd
    exact hd.step here.progress hord here.key_eq hreg (fun htool =>
      hknown _ (here.mem_toolIds htool)) hraw hinfer
  · exact ⟨⟨fun _ _ _ _ => rfl, by simp, by simp, by simp⟩, by simp⟩

theorem Faithful.closed (hreg : ToolsNamed set) (hraw : set.options.allowRaw = false)
    (hinfer : set.options.noInference = false) (h : Faithful set n t r) (ht : OrdinaryTask t)
    (hn : Unambiguous set (withinIn n t.flow))
    (hknown : ∀ w ∈ withinIn n t.flow, ∀ id ∈ toolIds w.2, set.tools.has id) :
    ∀ is w, subAt t.flow is = some w → ∃ q, r.tree.at? is = some q ∧ q.Closed := by
  induction h using Faithful.induction with
  | @step n t r h run ih =>
    rintro (_ | ⟨i, is⟩) w hw
    · exact ⟨r.tree, rfl, (joinedRun run ht h.kept hn hreg (hknown t.flow (mem_withinIn_self n _))
        hraw hinfer).closed⟩
    · obtain ⟨v, hv, hw⟩ := bind_eq_some_iff.mp hw
      obtain ⟨u, s, hs, hsubs, hu, hord⟩ := inner_ordinary run ht h.kept hn hv
      rw [← hu] at hv hw
      rw [PartTree.at?, hsubs, bind_some]
      exact ih hs hord (hn.inner hv) (fun x hx => hknown x (mem_withinIn_inner hv hx)) is w hw

end Nested

/-- Every workflow inside a workflow without explicit edges comes out closed and free of cycles,
when every tool is known and no name can be taken for a path. -/
theorem compile_closed {set : Setting} {path : String} {yml : Doc} {graph : Graph} {r : Compiled}
    (hreg : ∀ e ∈ set.tools, Path.stem e.2.runPath = e.1.stem)
    (halias : Doc.mentions (.str Yaml.aliasKey) yml = false)
    (hanchor : Doc.mentions (.str Yaml.anchorKey) yml = false)
    (hknown : ∀ w ∈ within path yml, ∀ id ∈ toolIds w.2, set.tools.has id = true)
    (hnames : Unambiguous set (within path yml)) (hinfer : set.options.noInference = false)
    (hraw : set.options.allowRaw = false) (hinsert : set.options.insertSteps = false)
    (h : (compile set (.root path yml graph)).Yields r) :
    ∀ is w, subAt (path, yml) is = some w → ∃ q, r.tree.at? is = some q ∧ q.Closed := by
  obtain ⟨s, hs, rfl⟩ := h.of_map
  exact Faithful.closed hreg hraw hinfer ⟨hs, compileAt_unaltered hinsert hs⟩
    (OrdinaryTask.root ⟨halias, hanchor⟩)
    hnames hknown

namespace Sample

def pipeline : Doc :=
  workflow [step "echo" [("in", Doc.obj [("m", inline "x")])],
    inner "sub.wic" (workflow [step "cat" [], step "cat" []])]

end Sample

open Sample in
theorem compile_closed_pipeline :
    ∃ r, (compile (setting [echoTool, catTool])
        (.root "wf.wic" pipeline (Graph.empty "" ""))).Yields r ∧
      ∃ q, r.tree.at? [1] = some q ∧ q.Closed := by
  have hsome : (compiled (setting [echoTool, catTool]) "wf.wic" pipeline).isSome = true := by
    decide +kernel
  obtain ⟨r, hr⟩ := Logged.yields_of_isSome hsome
  refine ⟨r, hr, ?_⟩
  have hinner : (subAt ("wf.wic", pipeline) [1]).isSome = true := by decide +kernel
  obtain ⟨w, hw⟩ := Option.isSome_iff_exists.mp hinner
  exact compile_closed (by decide +kernel) (by decide +kernel) (by decide +kernel)
    (by decide +kernel) ⟨by decide +kernel, by decide +kernel, by decide +kernel⟩ rfl rfl
    rfl hr [1] w hw

namespace Sample

def pathName : String := "wf__step__1__cwl_subinterpreter___homedir"

def clash : Doc :=
  workflow [step "cwl_subinterpreter" [],
    inner "sub.wic" (Doc.obj [("inputs", Doc.obj [(pathName, text)]),
    ("steps", .list [step "echo" [("in", Doc.obj [("m", .str pathName)])]])])]

end Sample

open Sample in
/-- Without the condition on names, a compiled workflow may refer to an output that no step has. -/
theorem not_compile_closed :
    ¬ ∀ (set : Setting) (path : String) (yml : Doc) (graph : Graph) (r : Compiled),
      (∀ e ∈ set.tools, Path.stem e.2.runPath = e.1.stem) →
      Doc.mentions (.str Yaml.aliasKey) yml = false → Doc.mentions (.str Yaml.anchorKey) yml =
      false → (∀ w ∈ within path yml, ∀ id ∈ toolIds w.2, set.tools.has id = true) →
      set.options.noInference = false → set.options.allowRaw = false →
      set.options.insertSteps = false → (compile set (.root path yml graph)).Yields r →
      ∀ is w, subAt (path, yml) is = some w → ∃ q, r.tree.at? is = some q ∧ q.Closed := by
  intro h
  have hdangles : (compiled (setting [interpreterTool, echoTool]) "wf.wic" clash).any
      (fun r => r.tree.dangles 1 pathName) = true := by
    decide +kernel
  obtain ⟨r, hr, hdangles⟩ := Logged.yields_of_any hdangles
  obtain ⟨q, hq, hclosed⟩ := h _ _ _ _ r (by decide +kernel) (by decide +kernel) (by decide +kernel)
    (by decide +kernel) rfl rfl rfl hr [] _ rfl
  cases hq
  rw [hclosed.not_dangles] at hdangles
  cases hdangles

end WorkflowInference.Compile
