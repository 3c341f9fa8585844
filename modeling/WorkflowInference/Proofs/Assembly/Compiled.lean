import WorkflowInference.Proofs.Assembly.Rendering
import WorkflowInference.Proofs.Compile.Leaves

/-!
Workflows from memory, compiled. The tree that a workflow is compiled to has the shape of the
workflow: what stands at a path in the tree is what the process at this path is compiled to.
-/
namespace WorkflowInference.Assembly

open Compile Workflow Option List

theorem opened_documentOf
    (h : opened (Scene.documentOf ins outs steps) = some o) :
    o.steps = steps ∧ o.notes = .map [] ∧ steps.map stepKey = o.keys.map .str := by
  have hwic : under? (Scene.documentOf ins outs steps) "wic" = none := by
    cases ins <;> cases outs <;> rfl
  obtain ⟨es, hes⟩ : ∃ es, Scene.documentOf ins outs steps = .map es := ⟨_, rfl⟩
  have hsteps : Entries.get? es "steps" = some (.list steps) := by rw [← under?_map, ← hes]; rfl
  rw [hes] at hwic
  have hann : annotations es = .map [] := by rw [annotations, Entries.getD, ← under?_map, hwic]; rfl
  have hy := yields_of_opened h
  rw [openWorkflow_own (by rw [ownsSteps, hwic]; rfl) hsteps (by rw [hann]; rfl) hes] at hy
  obtain ⟨keys, hkeys, hy⟩ := hy.of_lift
  split at hy
  · exact absurd hy Logged.yields_throw
  obtain ⟨tree, -, rfl⟩ := hy.of_map
  obtain ⟨xs, hxs, hkeys⟩ := keysOf_spec hkeys
  cases hxs
  exact ⟨rfl, rfl, hkeys⟩

section Plain

variable {set : Setting} {n k : Nat} {t : Task} {r : Compiled} {steps : List Doc}
  {run : OnceRun (compileAt set n) set t r}

/-- A compilation of a document that says no more than its steps, inputs and outputs. -/
structure Plainly (run : OnceRun (compileAt set n) set t r) (steps : List Doc) : Prop where
  keys : steps.map stepKey = run.start.keys.map .str
  notes : run.start.notes = .map []
  steps_eq : run.start.steps = steps
  unaltered : Unaltered r.tree (t.path, t.yml)
  placed : PlacedRun run

theorem exists_key {keys : List String} (h : steps.map stepKey = keys.map .str)
    (hk : k < keys.length) :
    ∃ key step, keys[k]? = some key ∧ steps[k]? = some step ∧ stepKey step = .str key := by
  have hat := congrArg (fun xs => xs[k]?) h
  simp only [getElem?_map, getElem?_eq_getElem hk, map_some] at hat
  obtain ⟨step, hstep, hkey⟩ := map_eq_some_iff.mp hat
  exact ⟨_, step, getElem?_eq_getElem hk, hstep, hkey⟩

theorem Plainly.key_at {step : Doc} {key : String} (h : Plainly run steps)
    (hstep : steps[k]? = some step) (hkey : stepKey step = .str key) :
    run.start.keys[k]? = some key := by
  have hlen : steps.length = run.start.keys.length := by simpa using congrArg length h.keys
  obtain ⟨key', step', hkey', hstep', heq⟩ :=
    exists_key h.keys (hlen ▸ (List.getElem?_eq_some_iff.mp hstep).1)
  cases hstep.symm.trans hstep'
  rw [hkey', Doc.str.inj (heq.symm.trans hkey)]

theorem compileAt_plainly {ins outs : Entries} (hno : set.options.insertSteps = false)
    (hrun : (compileAt set n t).Yields r) (hyml : t.yml = Scene.documentOf ins outs steps)
    (hknown : ∀ step ∈ steps, ∀ key, stepKey step = .str key → isSubKey key = false →
      set.tools.has ⟨Path.stem key, globalSpace⟩) :
    ∃ n', ∃ run : OnceRun (compileAt set n') set t r, Plainly run steps := by
  obtain - | n := n
  · exact absurd hrun Logged.yields_throw
  have hun := compileAt_unaltered hno hrun
  obtain ⟨run⟩ := compileAt_once hrun hun.yml
  obtain ⟨hsteps, hnotes, hkeys⟩ := opened_documentOf (hyml ▸ run.opened)
  have hids : ∀ id ∈ toolIds t.yml, set.tools.has id ∧ id.space = globalSpace := by
    intro id hid
    rw [toolIds, run.opened, elim_some, mem_filterMap] at hid
    obtain ⟨j, hj, hid⟩ := hid
    obtain ⟨key, step, hkey, hstep, heq⟩ := exists_key hkeys (mem_range.mp hj)
    rw [getD_of_getElem? hkey, hnotes, noteAt_empty] at hid
    split at hid
    · cases hid
    · rename_i hsub
      cases hid
      exact ⟨hknown step (mem_of_getElem? hstep) key heq (Bool.eq_false_iff.mpr hsub), rfl⟩
  exact ⟨n, run, hkeys, hnotes, hsteps, hun,
    placedRun run (.inr fun id hid => (hids id hid).2) fun id hid => (hids id hid).1⟩

/-- What a step is compiled to: the tool that is known under its key, or what the document below it
is compiled to. -/
inductive Brings (set : Setting) (step : Doc) (key : String) (u : PartTree) : Prop
  | tool {tool : Tool} (isTool : isSubKey key = false)
      (known : set.tools.get? ⟨Path.stem key, globalSpace⟩ = some tool)
      (cwl : u.part.cwl = tool.cwl) (leaf : u.subs = [])
  | inner {m : Nat} {v : Task} {s : Compiled} (subtree : under? step "subtree" = some v.yml)
      (running : (compileAt set m v).Yields s) (tree : u = s.tree)

theorem Plainly.sub {u : PartTree} (h : Plainly run steps) (hu : r.tree.subs[k]? = some u) :
    ∃ step key, steps[k]? = some step ∧ stepKey step = .str key ∧ Brings set step key u ∧
      ∀ d, r.tree.embedded = .ok d → ∃ e, u.embedded = .ok e ∧
      ∀ ks, runAt (bare d) (k :: ks) = runAt (bare e) ks := by
  have hk := run.lt_of_sub hu
  obtain ⟨key, step, hkey, hstep, heq⟩ := exists_key h.keys hk
  obtain ⟨place⟩ := run.placeAt hk
  obtain ⟨u', hu', hruns, -⟩ := place.here.runs h.unaltered h.placed.known
  cases hu.symm.trans hu'
  obtain ⟨es, hfit⟩ := run.fitted h.placed.ids_nodup
  refine ⟨step, key, hstep, heq, ?_, fun d hd => hfit.embedded hd hu⟩
  cases hruns with
  | inner hinner hyields htask htree =>
    obtain ⟨o, ho, -, -, hsub⟩ := innerAt_eq_some hinner
    cases run.opened.symm.trans ho
    rw [h.steps_eq, getD_of_getElem? hstep, ← htask] at hsub
    exact .inner hsub hyields htree
  | tool hnamed hget hcwl hleaf =>
    rw [toolAt, run.opened, bind_some, getD_of_getElem? hkey, h.notes, noteAt_empty] at hnamed
    split at hnamed
    · cases hnamed
    · rename_i hsub
      cases hnamed
      exact .tool (Bool.eq_false_iff.mpr hsub) hget hcwl hleaf

end Plain

def Process.Known (tools : Registry) (p : Process) : Prop :=
  ∀ part, p.content = .step part → ∃ path, tools.get? ⟨Path.stem p.name, globalSpace⟩ =
    some ⟨path, part.tool⟩

def Process.key (p : Process) : String := if p.isStep then p.name else Scene.fileName p

theorem Assemble.yields_of_ofAct {α : Type} {x : Logged α} {s t : Scene} {a : α}
    (h : (Assemble.ofAct (Act.ofLogged x)).outcome s = (.ok a, t)) : x.Yields a := by
  have hfst : (x.outcome s.session.log).1 = .ok a := congrArg Prod.fst h
  exact ⟨s.session.log, (x.outcome s.session.log).2, Prod.ext hfst rfl⟩

namespace Scene

variable {s : Scene} {set : Setting} {i k m n c : Nat} {p w : Process}
  {H : String → OutputRef → Prop} {names : List (String × String)} {t : Task} {r : Compiled}
  {q u : PartTree} {d : Doc}

theorem isSubKey_fileName (p : Process) : isSubKey (fileName p) := by
  rw [isSubKey, Text.endsWith_iff, fileName, String.toList_append]
  exact suffix_append _ _

theorem content_of_key (h : isSubKey p.key = false) :
    ∃ part, p.content = .step part ∧ p.key = p.name := by
  cases hcontent : p.content with
  | workflow cs =>
    rw [Process.key, Process.isStep, hcontent] at h
    cases (isSubKey_fileName p).symm.trans h
  | step part => exact ⟨part, rfl, by rw [Process.key, Process.isStep, hcontent]; rfl⟩

theorem Renders.key_eq (h : s.Renders n p d) : stepKey d = .str p.key := by
  cases h with
  | step h => rw [Process.key, Process.isStep, h]; rfl
  | workflow h hdoc => rw [Process.key, Process.isStep, h]; rfl

theorem Renders.no_subtree (h : s.Renders n p d) (hstep : p.isStep) :
    under? d "subtree" = none := by
  cases h with
  | step h =>
    rw [under?_map, Process.stepEntries]
    repeat' split
    all_goals rfl
  | workflow h hdoc => simp [Process.isStep, h] at hstep

structure Drafted (s : Scene) (m : Nat) (names : List (String × String)) (p : Process)
    (run : OnceRun (compileAt set n) set t r) (ins outs : Entries) (steps : List Doc) :
    Prop extends Plainly run steps where
  yml : t.yml = documentOf ins outs steps
  rendered : s.Rendered m names p ins outs steps

section

variable (hno : set.options.insertSteps = false) (hrun : (compileAt set n t).Yields r)
  (hdoc : s.documentTo m names p = .ok t.yml)

include hno hrun hdoc

theorem drafted (hknown : ∀ e ∈ s.childrenOf p, e.2.Known set.tools) :
    ∃ m' n', ∃ run : OnceRun (compileAt set n') set t r, ∃ ins outs steps,
      s.Drafted m' names p run ins outs steps := by
  obtain - | m := m
  · cases hdoc
  obtain ⟨ins, outs, steps, hyml, hrender⟩ := documentTo_succ hdoc
  obtain ⟨n', run, hplain⟩ := compileAt_plainly hno hrun hyml fun step hstep key hkey hsub => by
    obtain ⟨j, hj⟩ := getElem?_of_mem hstep
    obtain ⟨q, hq, hqd⟩ := hrender.step hj
    cases Doc.str.inj (hqd.key_eq.symm.trans hkey)
    obtain ⟨part, hcontent, heq⟩ := content_of_key hsub
    obtain ⟨path, hget⟩ := hknown q (mem_of_getElem? hq) part hcontent
    rw [heq]
    exact isSome_iff_exists.mpr ⟨_, hget⟩
  exact ⟨m, n', run, ins, outs, steps, hplain, hyml, hrender⟩

theorem isStep_of_compiled : p.isStep = false := by
  by_contra hstep
  have hnone : s.childrenOf p = [] := by
    cases hcontent : p.content with
    | step part => simp [childrenOf, Process.children, hcontent]
    | workflow cs => simp [Process.isStep, hcontent] at hstep
  obtain ⟨m, n, run, ins, outs, steps, draft⟩ := drafted hno hrun hdoc (by simp [hnone])
  have hempty : steps = [] := eq_nil_of_length_eq_zero (by rw [draft.rendered.length, hnone]; rfl)
  have hkeys := draft.keys
  rw [hempty] at hkeys
  exact (openWorkflow_opens run.opening).keys_ne (map_eq_nil_iff.mp hkeys.symm)

end

/-- What a process is compiled to: a step to its tool, a workflow to what its document is compiled
to. -/
inductive Compiles (s : Scene) (set : Setting) : Process → PartTree → Prop
  | step {p : Process} {q : PartTree} {part : StepPart} (content : p.content = .step part)
      (cwl : q.part.cwl = part.tool) (leaf : q.subs = []) : Compiles s set p q
  | workflow {p : Process} {m n : Nat} {names : List (String × String)} {t : Task} {r : Compiled}
      (content : p.isStep = false) (document : s.documentTo m names p = .ok t.yml)
      (running : (compileAt set n t).Yields r) : Compiles s set p r.tree

theorem Compiles.child (hs : s.Sound H) (hno : set.options.insertSteps = false)
    (h : s.Compiles set p q) (hp : s.process? i = some p)
    (hknown : ∀ e ∈ s.childrenOf p, e.2.Known set.tools) (hu : q.subs[k]? = some u) :
    ∃ c w, p.children[k]? = some c ∧ s.process? c = some w ∧ s.Compiles set w u ∧
      ∀ d, q.embedded = .ok d →
      ∃ e, u.embedded = .ok e ∧ ∀ ks, runAt (bare d) (k :: ks) = runAt (bare e) ks := by
  cases h with
  | step content cwl leaf => simp [leaf] at hu
  | workflow content hdoc hrun =>
    obtain ⟨m, n, run, ins, outs, steps, draft⟩ := drafted hno hrun hdoc hknown
    obtain ⟨step, key, hstep, hkey, hbrings, hembedded⟩ := draft.sub hu
    obtain ⟨c, w, hc, hw, hwd⟩ := draft.rendered.child hs hp hstep
    cases Doc.str.inj (hwd.key_eq.symm.trans hkey)
    refine ⟨c, w, hc, hw, ?_, hembedded⟩
    cases hbrings with
    | inner hsub hyields htree =>
      subst htree
      cases hisStep : w.isStep with
      | true => rw [hwd.no_subtree hisStep] at hsub; cases hsub
      | false =>
        obtain ⟨sub, hsub', hdocw⟩ := hwd.subtree hisStep
        cases hsub.symm.trans hsub'
        exact .workflow hisStep hdocw hyields
    | tool hsub hget hcwl hleaf =>
      obtain ⟨part, hcontent, heq⟩ := content_of_key hsub
      obtain ⟨path, hpath⟩ :=
        hknown (c, w) (mem_childrenOf.mpr ⟨mem_of_getElem? hc, hw⟩) part hcontent
      rw [heq] at hget
      cases hpath.symm.trans hget
      exact .step hcontent hcwl hleaf

theorem known_children (ks : List Nat)
    (hknown : ∀ ks j w, s.at? i ks = some j → s.process? j = some w → w.Known tools)
    (hj : s.at? i ks = some j) (hw : s.process? j = some w) :
    ∀ e ∈ s.childrenOf w, e.2.Known tools := by
  intro e he
  obtain ⟨l, hl⟩ := getElem?_of_mem (mem_childrenOf.mp he).1
  refine hknown (ks ++ [l]) e.1 e.2 ?_ (mem_childrenOf.mp he).2
  rw [at?_append, hj, bind_some, at?, hw, bind_some, hl]
  rfl

theorem Compiles.at_path (hs : s.Sound H) (hno : set.options.insertSteps = false)
    (hknown : ∀ ks j w, s.at? i ks = some j → s.process? j = some w → w.Known set.tools)
    (h : s.Compiles set p q) (hp : s.process? i = some p) (hu : q.at? ks = some u) :
    ∃ j w, s.at? i ks = some j ∧ s.process? j = some w ∧ s.Compiles set w u ∧
      ∀ d, q.embedded = .ok d →
      ∃ e, u.embedded = .ok e ∧ runAt (bare d) ks = some (bare e) := by
  induction ks generalizing i p q with
  | nil =>
    cases hu
    exact ⟨i, p, rfl, hp, h, fun d hd => ⟨d, hd, rfl⟩⟩
  | cons k ks ih =>
    obtain ⟨v, hv, hu⟩ := PartTree.at?_cons hu
    obtain ⟨c, w, hc, hw, hwv, hrun⟩ := h.child hs hno hp (known_children [] hknown rfl hp) hv
    have hbelow : ∀ ls, s.at? i (k :: ls) = s.at? c ls := fun ls => by
      rw [at?, hp, bind_some, hc, bind_some]
    obtain ⟨j, w', hj, hw', hwu, hrun'⟩ :=
      ih (fun ls j w hat => hknown (k :: ls) j w ((hbelow ls).trans hat)) hwv hw hu
    refine ⟨j, w', (hbelow ks).trans hj, hw', hwu, fun d hd => ?_⟩
    obtain ⟨e, he, hruns⟩ := hrun d hd
    obtain ⟨e', he', hat⟩ := hrun' e he
    exact ⟨e', he', (hruns ks).trans hat⟩

def rootTask (p : Process) (doc : Doc) : Task :=
  ⟨p.name, doc, [], [Graph.root p.name], [], [], [], [], true⟩

theorem compileTree_ends (tools : Registry) :
    Assemble.Ends (Assemble.compileTree i tools) s (fun q _ => ∃ p doc r, s.process? i = some p ∧
      s.validate p = .ok () ∧ s.compilerDocument p = .ok doc ∧ p.isStep = false ∧
      (compileAt (s.setting (s.knownTools i tools)) (doc.depth + 2) (rootTask p doc)).Yields r ∧
      q = r.tree) fun _ => True := by
  refine .bind (P := fun a t => s = a ∧ s = t) (.get ⟨rfl, rfl⟩) ?_
  rintro _ _ ⟨rfl, rfl⟩
  refine .process_bind trivial fun p hp => .lift_bind trivial fun _ hvalid =>
    .lift_bind trivial fun doc hdoc => ?_
  refine .bind (P := fun r _ => (compile (s.setting (s.knownTools i tools)) (rootTask p doc)).Yields
    r) ⟨Assemble.yields_of_ofAct, fun _ => trivial⟩ fun r t hr => ?_
  obtain ⟨r', hr', hr⟩ := hr.of_bind
  refine .pure ⟨p, doc, r', hp, hvalid, hdoc, isStep_of_compiled rfl hr' hdoc, hr', ?_⟩
  rw [← Logged.yields_pure.mp hr]

end Scene

end WorkflowInference.Assembly
