import WorkflowInference.Proofs.Compile.Frame
import WorkflowInference.Proofs.Compile.Opening

/-!
The compilation of a workflow as a run over its steps, and of a workflow that may have to be
compiled anew. A step that is put in makes the list of steps longer, so a workflow that comes out
with the steps it had was compiled once, without insertion. Its document has the inputs, the outputs
and the steps of the last draft.
-/
namespace WorkflowInference.Compile

open Logged List

inductive StepsRun (sub : Compiler) (c : Scope) : List String → Nat → Draft → Draft → Prop
  | nil (i : Nat) (d : Draft) : StepsRun sub c [] i d d
  | cons {key : String} {keys : List String} {i : Nat} {d e f : Draft}
      (head : StepRun sub c i key d e) (tail : StepsRun sub c keys (i + 1) e f) :
      StepsRun sub c (key :: keys) i d f

section Steps

variable {keys : List String}

theorem compileSteps_run (h : (compileSteps sub c keys i d).Yields r)
    (hnone : r.2 = none) : StepsRun sub c keys i d r.1 := by
  induction keys generalizing i d with
  | nil =>
    rw [← yields_pure.mp h]
    exact .nil i d
  | cons key keys ih =>
    obtain ⟨⟨e, insertion⟩, he, h⟩ := h.of_bind
    cases insertion with
    | some id =>
      rw [← yields_pure.mp h] at hnone
      cases hnone
    | none =>
      obtain ⟨run⟩ := compileStep_run he rfl
      exact .cons run (ih h)

theorem StepsRun.parts_prefix (h : StepsRun sub c keys i d e) : d.parts <+: e.parts := by
  induction h with
  | nil => exact prefix_rfl
  | cons head _ ih => exact head.frame.parts.trans ih

theorem StepsRun.keeps {P : Nat → Draft → Prop} (h : StepsRun sub c keys i d e)
    (hstep : ∀ j key f g, c.keys[j]? = some key → P j f → StepRun sub c j key f g →
      g.parts <+: e.parts → P (j + 1) g) (hkeys : keys = c.keys.drop i) (hd : P i d) :
    P (i + keys.length) e := by
  induction h with
  | nil i d => exact hd
  | @cons key keys i d e f head tail ih =>
    have hget : c.keys[i]? = some key := by
      rw [← head?_drop, ← hkeys, head?_cons]
    have hdrop : keys = c.keys.drop (i + 1) := by
      rw [← tail_drop, ← hkeys, tail_cons]
    have := ih hstep hdrop (hstep i key d e hget hd head tail.parts_prefix)
    rwa [length_cons, Nat.add_comm keys.length, ← Nat.add_assoc]

end Steps

structure OnceRun (sub : Compiler) (set : Setting) (t : Task) (r : Compiled) where
  start : Opening
  opening : (openWorkflow t).Yields start
  last : Draft
  steps : StepsRun sub ⟨set, t, Path.stem t.path, start.keys⟩ start.keys 0 (.start t start) last
  concluding : conclude ⟨set, t, Path.stem t.path, start.keys⟩ start.wic last = .ok r

structure Progress (start : Draft) (i : Nat) (d : Draft) : Prop where
  tools : d.tools.length = i
  parts : d.parts.length = i
  outputs : d.outputs.length = i
  length : d.steps.length = start.steps.length
  later : ∀ j, i ≤ j → d.step j = start.step j
  tree : ∀ l, l ≠ "inputs" → Entries.get? d.tree l = Entries.get? start.tree l
  own : SameKeys start.ownInputs d.ownInputs

theorem Progress.step
    (h : Progress start i d) (run : StepRun sub c i key d e) : Progress start (i + 1) e := by
  obtain ⟨-, hparts, htools⟩ := run.entered
  obtain ⟨p, hp, -⟩ := run.brought_parts
  obtain ⟨outs, sigs, -, -, houtputs⟩ := run.outputs_eq
  have hframe := run.frame
  constructor
  · rw [htools, length_append, h.tools, length_singleton]
  · rw [hparts, hp, length_append, h.parts, length_singleton]
  · rw [houtputs, length_append, h.outputs, length_singleton]
  · rw [hframe.length, h.length]
  · intro j hj
    rw [hframe.others j (by omega), h.later j (by omega)]
  · intro l hl
    rw [hframe.tree l hl, h.tree l hl]
  · exact h.own.trans hframe.own

namespace OnceRun

variable {set : Setting}

def scope (run : OnceRun sub set t r) : Scope := ⟨set, t, Path.stem t.path, run.start.keys⟩

theorem keeps (run : OnceRun sub set t r) {P : Nat → Draft → Prop}
    (hstep : ∀ j key d e, run.start.keys[j]? = some key → Progress (.start t run.start) j d →
      P j d → StepRun sub run.scope j key d e → e.parts <+: run.last.parts → P (j + 1) e)
    (hstart : P 0 (.start t run.start)) :
    Progress (.start t run.start) run.start.keys.length run.last ∧
      P run.start.keys.length run.last := by
  have h := run.steps.keeps (P := fun j d => Progress (.start t run.start) j d ∧ P j d)
    (fun j key d e hkey hd head hparts =>
      ⟨hd.1.step head, hstep j key d e hkey hd.1 hd.2 head hparts⟩) rfl
    ⟨⟨rfl, rfl, rfl, rfl, fun _ _ => rfl, fun _ _ => rfl, .refl _⟩, hstart⟩
  rwa [Nat.zero_add] at h

end OnceRun

theorem compileOnce_cases {sub : Compiler} {set : Setting} {t : Task} {r : Compiled}
    (h : (compileOnce sub set t).Yields r) :
    Nonempty (OnceRun sub set t r) ∨ ∃ keys d e id i,
      (compileSteps sub ⟨set, t, Path.stem t.path, keys⟩ keys 0 d).Yields (e, some (id, i)) ∧
      withInsertion set t id i e = .ok r := by
  obtain ⟨-, -, o, ho, ⟨d, insertion⟩, hsteps, h⟩ := h.of_bind₃
  cases insertion with
  | some p => exact .inr ⟨_, _, d, p.1, p.2, hsteps, by simpa using h⟩
  | none =>
    obtain ⟨r', hr', -, -, h⟩ := h.of_bind₂
    rw [← yields_pure.mp h]
    exact .inl ⟨o, ho, d, compileSteps_run hsteps rfl, by simpa using hr'⟩

section Insertion

variable {d : Draft} {r : Draft × Option StepId} {id : StepId}

theorem requireAll_insertion (h : (requireAll c s provided referred args d).Yields r)
    (hsome : r.2.isSome) : c.setting.options.insertSteps := by
  induction args generalizing d with
  | nil =>
    rw [← yields_pure.mp h] at hsome
    cases hsome
  | cons arg args ih =>
    obtain ⟨got, -, h⟩ := h.of_bind
    split at h
    · rename_i hinsert
      exact hinsert
    · exact ih h

theorem compileStep_insertion (h : (compileStep sub c i key d).Yields r) (hsome : r.2.isSome) :
    c.setting.options.insertSteps := by
  obtain ⟨noted, -, run, -, d₁, -, h⟩ := h.of_bind₃
  obtain ⟨provided, -, params, -, ⟨d₂, insertion, required⟩, hbound, h⟩ := h.of_bind₃
  cases insertion with
  | some id =>
    obtain ⟨required', -, cls, -, owned, -, hbound⟩ := hbound.of_bind₃
    obtain ⟨drawn, -, named, -, hbound⟩ := hbound.of_bind₂
    obtain ⟨taken, -, bound, hall, hbound⟩ := hbound.of_bind₂
    rw [yields_pure] at hbound
    exact requireAll_insertion hall (by simp [(Prod.mk.inj (Prod.mk.inj hbound).2).1])
  | none =>
    obtain ⟨d₃, -, d₄, -, h⟩ := h.of_bind₂
    rw [← yields_pure.mp h] at hsome
    cases hsome

theorem compileSteps_insertion {keys : List String} {r : Draft × Option (StepId × Nat)}
    (h : (compileSteps sub c keys i d).Yields r) (hsome : r.2.isSome) :
    c.setting.options.insertSteps := by
  induction keys generalizing i d with
  | nil =>
    rw [← yields_pure.mp h] at hsome
    cases hsome
  | cons key keys ih =>
    obtain ⟨⟨e, insertion⟩, he, h⟩ := h.of_bind
    cases insertion with
    | some id => exact compileStep_insertion he rfl
    | none => exact ih h

def stepCount (yml : Doc) : Nat := (((under? yml "steps").bind Doc.list?).getD []).length

theorem insertStep_stepCount (h : insertStep rules yml id tool i = .ok yml') :
    stepCount yml < stepCount yml' := by
  obtain ⟨old, hold, steps, hsteps, tool, -, h⟩ := Result.of_bind₃ h
  obtain ⟨inference, -, es, hes, wic, -, hlast⟩ := Result.of_bind₃ h
  rw [entries_eq_ok] at hes
  subst hes
  rw [← Result.pure_eq_ok.mp hlast]
  cases old with
  | list xs =>
    cases hsteps
    have hown : Entries.get? es "steps" = some (.list xs) := field_eq_ok.mp hold
    simp [stepCount, hown, Entries.get?_put_ne (k := "wic") (l := "steps") (by decide), Doc.list?]
    omega
  | _ => cases hsteps

theorem withInsertion_stepCount {set : Setting} {t : Task} {r : Compiled}
    (h : withInsertion set t id i d = .ok r) : stepCount t.yml < stepCount r.tree.part.yml := by
  obtain ⟨yml, hyml, rfl⟩ := Result.of_map h
  exact insertStep_stepCount hyml

end Insertion

variable {once : Compiler} {n : Nat} {t : Task} {r : Compiled}

theorem rounds_induct {P : Task → Compiled → Prop} (hlast : ∀ t r, (once t).Yields r → P t r)
    (hmore : ∀ t s r, (once t).Yields s → P { t with yml := s.tree.part.yml } r → P t r)
    (h : (rounds once n t).Yields r) : P t r := by
  induction n generalizing t with
  | zero => exact hlast t r h
  | succ n ih =>
    obtain ⟨s, hs, h⟩ := h.of_bind
    split at h
    · rw [yields_pure] at h
      exact h ▸ hlast t s hs
    · exact hmore t s r hs (ih h)

theorem rounds_cases
    (honce : ∀ u r, (once u).Yields r → r.tree.part.yml = u.yml ∨
      stepCount u.yml < stepCount r.tree.part.yml) (h : (rounds once n t).Yields r) :
    stepCount t.yml < stepCount r.tree.part.yml ∨ r.tree.part.yml = t.yml ∧ (once t).Yields r := by
  refine rounds_induct (P := fun t r => stepCount t.yml < stepCount r.tree.part.yml ∨
    r.tree.part.yml = t.yml ∧ (once t).Yields r)
    (fun t r h => (honce t r h).symm.imp_right fun heq => ⟨heq, h⟩) (fun t s r hs h => ?_) h
  rcases honce t s hs with heq | hlt
  · rw [heq] at h
    exact h
  · rcases h with hlt' | ⟨heq, -⟩
    · exact .inl (Nat.lt_trans hlt hlt')
    · exact .inl (heq ▸ hlt)

end WorkflowInference.Compile

namespace WorkflowInference.Compile

open Entries Result Namespaces Draft
open List hiding getD

variable {c : Scope} {d : Draft} {r : Draft × Entries} {given job : Entries} {tool : Tool}
  {step : String} {i : Nat} {b : Bool}

theorem drawOutput_draws (h : drawOutput c tool step d out = .ok d') : d.Draws d' := by
  unfold drawOutput at h
  split at h
  · rw [← pure_eq_ok.mp h]
    exact .refl d
  · obtain ⟨cls, -, h⟩ := of_bind h
    dsimp only at h
    split at h
    · obtain ⟨texts, -, rfl⟩ := of_map h
      refine .onOwn d fun g => ?_
      exact List.Subset.trans (Graph.subset_addName (g := g.addLines _)) Graph.subset_addArrow
    · rw [← pure_eq_ok.mp h]
      exact .refl d

theorem stepOutputs_spec (h : stepOutputs c acc i = .ok r) :
    acc.1.Draws r.1 ∧ ∃ tool scattered new, acc.1.tools[i]? = some tool ∧
      (acc.1.step i).holds "scatter" = .ok scattered ∧
      (acc.1.outputs.getD i []).mapM (outputOf (outStepName c i tool) scattered) = .ok new ∧
      r.2 = update acc.2 new := by
  obtain ⟨tool, htool, names, -, d, hd, h⟩ := of_bind₃ h
  obtain ⟨scattered, hscattered, new, hnew, h⟩ := of_bind₂ h
  have hdraws : acc.1.Draws d := by
    refine (foldlM_eq_ok hd).keeps (P := acc.1.Draws) ?_ (.refl acc.1)
    exact fun out _ d e hd he => hd.trans (drawOutput_draws he)
  rw [← pure_eq_ok.mp h]
  refine ⟨hdraws, tool, scattered, new, elim_eq_ok.mp htool, ?_, ?_, rfl⟩
  · rw [← step_congr (steps_of_core hdraws.core)]
    exact hscattered
  · rw [← (Draft.Alongside.of_core hdraws.core).outputs]
    exact hnew

def BroughtUp (c : Scope) (d : Draft) (e : Doc × Doc) : Prop :=
  ∃ i tool o scattered, i < c.keys.length ∧ d.tools[i]? = some tool ∧ o ∈ d.outputs.getD i [] ∧
    (d.step i).holds "scatter" = .ok scattered ∧ outputOf (outStepName c i tool) scattered o = .ok e

theorem outputOf_spec {e r : Doc × Doc} (h : outputOf step b e = .ok r) :
    r.1 = .str (step ++ sep ++ e.1.text) ∧
      under? r.2 "outputSource" = some (.str (step ++ "/" ++ e.1.text)) := by
  obtain ⟨es, -, type, -, h⟩ := of_bind₂ h
  obtain ⟨type', -, rfl⟩ := of_map h
  exact ⟨rfl, by simp⟩

theorem BroughtUp.key (h : BroughtUp c d e) : ∃ k, e.1 = .str k :=
  let ⟨_, _, _, _, _, _, _, _, hout⟩ := h
  ⟨_, (outputOf_spec hout).1⟩

theorem workflowOutputs_spec (h : workflowOutputs c d = .ok r) :
    d.Draws r.1 ∧ ∀ e ∈ r.2, BroughtUp c d e := by
  refine (foldlM_eq_ok h).keeps (P := fun acc => d.Draws acc.1 ∧ ∀ e ∈ acc.2, BroughtUp c d e) ?_
    ⟨.refl d, by simp⟩
  rintro i hi acc acc' ⟨hdraws, hacc⟩ hstep
  obtain ⟨hdraws', tool, scattered, new, htool, hscattered, hnew, heq⟩ := stepOutputs_spec hstep
  refine ⟨hdraws.trans hdraws', ?_⟩
  have halong := Draft.Alongside.of_core hdraws.core
  rw [halong.outputs] at hnew
  rw [halong.tools] at htool
  rw [step_congr (steps_of_core hdraws.core)] at hscattered
  have hall : ∀ e ∈ new, BroughtUp c d e := by
    intro e he
    obtain ⟨o, ho, hout⟩ := mem_of_mapM hnew he
    exact ⟨i, tool, o, scattered, mem_range.mp hi, htool, ho, hscattered, hout⟩
  intro e he
  rw [heq] at he
  rcases mem_update_of_str (fun f hf => (hall f hf).key) he with he | he
  · exact hacc e he
  · exact hall e he

theorem workflowOutputs_has (h : workflowOutputs c d = .ok r) (hi : i < c.keys.length)
    (htool : d.tools[i]? = some tool) (ho : o ∈ (d.outputs.getD i []).map (·.1)) :
    has r.2 (outStepName c i tool ++ sep ++ o.text) := by
  have hchain := (foldlM_eq_ok h).with_inv (P := fun acc => acc.1.core = d.core)
    (fun _ _ _ _ hacc hstep => (stepOutputs_spec hstep).1.core.trans hacc) rfl
  refine hchain.covers (W := fun acc i => ∀ tool, d.tools[i]? = some tool →
    ∀ o ∈ (d.outputs.getD i []).map (·.1),
    has acc.2 (outStepName c i tool ++ sep ++ o.text)) ?_ i
    (.inr (mem_range.mpr hi)) tool htool o ho
  rintro j acc acc' ⟨-, hcore, hstep⟩
  obtain ⟨-, tool', scattered, new, htool', -, hnew, heq⟩ := stepOutputs_spec hstep
  have halong := Draft.Alongside.of_core hcore
  rw [halong.tools] at htool'
  rw [halong.outputs] at hnew
  rw [heq]
  constructor
  · intro tool htool o ho
    rw [htool'] at htool
    cases htool
    obtain ⟨x, hx, rfl⟩ := mem_map.mp ho
    obtain ⟨y, hy, hout⟩ := mem_mapM hnew hx
    refine has_update.mpr (.inr (has_of_mem (v := y.2) ?_))
    rw [← (outputOf_spec hout).1]
    exact hy
  · exact fun k hk tool htool o ho => has_update.mpr (.inl (hk tool htool o ho))

theorem addRequirements_spec {es : Entries} {keys : List String} {notes r : Doc}
    (h : Workflow.addRequirements (.map es) keys notes b = .ok r) :
    ∃ fs, r = .map fs ∧ ∀ l, l ≠ "requirements" → get? fs l = get? es l := by
  obtain ⟨used, -, h⟩ := of_bind h
  dsimp only at h
  split at h
  · rw [← pure_eq_ok.mp h]
    exact ⟨es, rfl, fun _ _ => rfl⟩
  · obtain ⟨fs, hfs, h⟩ := of_bind h
    rw [entries_eq_ok] at hfs
    cases hfs
    split at h
    · rw [← pure_eq_ok.mp h]
      exact ⟨_, rfl, fun l hl => get?_put_ne hl.symm⟩
    · rw [← pure_eq_ok.mp h]
      exact ⟨_, rfl, fun l hl => get?_put_ne hl.symm⟩
    · simp at h

/-- Each value that is given is brought into the form that a run takes, and the job inputs are those
that are not null. -/
structure JobOf (given job : Entries) : Prop where
  formed : ∀ g ∈ given, ∃ v, jobInput g.2 = .ok v ∧ (v.isNull = false → (g.1, v) ∈ job)
  source : ∀ e ∈ job, ∃ g ∈ given, g.1 = e.1 ∧ jobInput g.2 = .ok e.2 ∧ e.2.isNull = false
  keys : (keys job).Sublist (keys given)

theorem JobOf.cons (hv : jobInput g.2 = .ok v) (h : JobOf given job) :
    JobOf (g :: given) (if v.isNull then job else (g.1, v) :: job) := by
  cases hnull : v.isNull with
  | true =>
    refine ⟨forall_mem_cons.mpr ⟨⟨v, hv, fun hv' => ?_⟩, h.formed⟩, fun e he => ?_, h.keys.cons _⟩
    · rw [hnull] at hv'
      cases hv'
    · obtain ⟨g', hg', hsource⟩ := h.source e he
      exact ⟨g', mem_cons_of_mem _ hg', hsource⟩
  | false =>
    refine ⟨forall_mem_cons.mpr ⟨⟨v, hv, fun _ => mem_cons_self⟩, fun g' hg' => ?_⟩,
      forall_mem_cons.mpr ⟨⟨g, mem_cons_self, rfl, hv, hnull⟩, fun e he => ?_⟩, h.keys.cons_cons _⟩
    · obtain ⟨v', hv', hmem⟩ := h.formed g' hg'
      exact ⟨v', hv', fun hnot => mem_cons_of_mem _ (hmem hnot)⟩
    · obtain ⟨g', hg', hsource⟩ := h.source e he
      exact ⟨g', mem_cons_of_mem _ hg', hsource⟩

theorem jobInputs_of_formed (h : ∀ g ∈ given, ∃ v, jobInput g.2 = .ok v) :
    ∃ job, jobInputs given = .ok job ∧ JobOf given job := by
  induction given with
  | nil => exact ⟨[], rfl, fun _ hg => (nomatch hg), fun _ he => (nomatch he), .slnil⟩
  | cons g given ih =>
    obtain ⟨v, hv⟩ := h g mem_cons_self
    obtain ⟨job, hjob, hof⟩ := ih fun g' hg' => h g' (mem_cons_of_mem _ hg')
    refine ⟨_, ?_, hof.cons hv⟩
    unfold jobInputs at hjob ⊢
    rw [filterMapM_cons, hv]
    refine bind_eq_ok.mpr ⟨if v.isNull then none else some (g.1, v), rfl, ?_⟩
    cases v.isNull with
    | true => exact hjob
    | false => exact bind_eq_ok.mpr ⟨job, hjob, rfl⟩

theorem jobInputs_spec (h : jobInputs given = .ok job) : JobOf given job := by
  have hformed : ∀ g ∈ given, ∃ v, jobInput g.2 = .ok v := by
    intro g hg
    obtain ⟨os, hos, -⟩ := filterMapM_eq_ok h
    obtain ⟨o, -, ho⟩ := mem_mapM hos hg
    obtain ⟨v, hv, -⟩ := of_bind ho
    exact ⟨v, hv⟩
  obtain ⟨job', hjob', hof⟩ := jobInputs_of_formed hformed
  rw [h] at hjob'
  cases hjob'
  exact hof

structure Concluded (c : Scope) (d : Draft) (r : Compiled) where
  cwl : Entries
  part : r.tree.part.cwl = .map cwl
  yml : r.tree.part.yml = c.task.yml
  subs : r.tree.subs = d.parts
  given : r.env.given = d.given
  defs : r.env.edgeDefs = d.edgeDefs
  calls : r.env.edgeCalls = d.edgeCalls
  own : Entries
  own_eq : d.ownInputs = .map own
  inputs : get? cwl "inputs" = some (.map (update own d.inputs))
  stated : Entries
  stated_eq : getD d.tree "outputs" (.map []) = .map stated
  brought : Draft × Entries
  /-- The graphs of the workflows among the steps are taken in before the outputs are drawn. -/
  absorb : Graph → Graph
  absorbs : ∀ g, NodesIn g (absorb g) ∧ ∀ h ∈ d.siblings, NodesIn h (absorb g)
  drawn : Draft
  drawn_core : drawn.core = d.core
  drawn_graphs : drawn.graphs = (d.onOwn absorb).graphs
  bringing : workflowOutputs c drawn = .ok brought
  graphs : r.graphs = brought.1.graphs
  outputs : get? cwl "outputs" = some (.map (update stated brought.2))
  named : List Doc
  naming : nameSteps c d = .ok named
  steps : get? cwl "steps" = some (.list named)
  rest : ∀ l, l ∉ ["inputs", "outputs", "steps", "requirements"] → get? cwl l = get? d.tree l
  raised : r.tree.part.inputs = d.inputs
  job : jobInputs d.given = .ok r.tree.part.jobInputs

theorem conclude_spec {wic : Doc} {r : Compiled} (h : conclude c wic d = .ok r) :
    Nonempty (Concluded c d r) := by
  obtain ⟨done, hdone, job, hjob, h⟩ := of_bind₂ h
  have hr := pure_eq_ok.mp h
  obtain ⟨ranks, -, first, -, own, hown, hdone⟩ := of_bind₃ hdone
  obtain ⟨outMap, -, brought, hbrought, stated, hstated, hdone⟩ := of_bind₃ hdone
  obtain ⟨tree, htree, named, hnamed, es, hes, hdone⟩ := of_bind₃ hdone
  have hlast := pure_eq_ok.mp hdone
  rw [entries_eq_ok] at hown hstated hes
  subst hes
  obtain ⟨fs, hfs, hrest⟩ := addRequirements_spec htree
  cases hfs
  rw [getD, get?_put_ne (by decide)] at hstated
  have hcore : brought.1.core = d.core :=
    (workflowOutputs_spec hbrought).1.core.trans (core_onOwn _)
  have hcore : done.1.core = d.core := by rw [← hlast]; exact hcore
  subst hr
  refine ⟨⟨done.2.1, rfl, rfl, rfl, ?_, ?_, ?_, own, hown, ?_, stated, hstated, brought,
    (Graph.addSubgraphs c.setting.graph · d.siblings c.task.namespaces.length d.firsts ranks),
    fun _ => Graph.addSubgraphs_nodes, _, by exact core_onOwn _, by rfl, hbrought, by
    rw [← hlast], ?_, named, hnamed, ?_, ?_, rfl, hjob⟩⟩
  · simpa [core, env] using congrArg given hcore
  · simpa [core, env] using congrArg edgeDefs hcore
  · simpa [core, env] using congrArg edgeCalls hcore
  · simp [← hlast, get?_put, hrest]
  · simp [← hlast, get?_put, hrest]
  · simp [← hlast]
  · intro l hl
    simp only [mem_cons, not_mem_nil, or_false, not_or] at hl
    obtain ⟨h₁, h₂, h₃, h₄⟩ := hl
    rw [← hlast, get?_put_ne (Ne.symm h₃), hrest l h₄, get?_put_ne (Ne.symm h₃),
      get?_put_ne (Ne.symm h₂), get?_put_ne (Ne.symm h₁)]

end WorkflowInference.Compile
