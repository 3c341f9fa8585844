import WorkflowInference.Proofs.Compile.Closure

/-!
What is said about a step in the source, and how the inputs that it does not state come to their
sources. A step that runs a tool speaks for itself; for a step that is a workflow, what is given at
its place and in its annotation is merged. When every tool is known under the key of its step, the
name under which a step stands in the document, the name in the sources that are inferred and in the
outputs that are brought up, and the last name on the path of what the step runs are the same.
-/
namespace WorkflowInference.Compile

open Entries Result Draft
open List hiding getD
open Workflow (placeKey)

variable {notes note : Doc} {a : String}

def sayingsAt (yml : Doc) (i : Nat) : List Doc :=
  (opened yml).elim [] fun o =>
    let key := o.keys.getD i ""
    let step := o.steps.getD i .null
    if Workflow.isSubKey key then
      [(under? step "parentargs").getD .null,
        noteArgs ((under? o.notes (placeKey i key)).getD (.map []))]
    else [step]

def inputNames (ins : Doc) : List String := (ins.members.toOption.getD []).filterMap Doc.str?

def statedAt (yml : Doc) (i : Nat) : List String :=
  (sayingsAt yml i).flatMap fun d => (d.valuesAt "in").flatMap inputNames

/-- The inputs that the step at a place provides: those that it states, and those that tell a step
which starts a compilation of its own where to find things. -/
def providedAt (yml : Doc) (i : Nat) : List String :=
  statedAt yml i ++ if (keysIn yml).getD i "" = interpreterKey then pathInputs else []

variable {i : Nat} {key : String} {old new : Doc} {r : Doc × Doc}

theorem mem_valuesAt_of_under? (h : under? d k = some v) : v ∈ d.valuesAt k := by
  obtain ⟨es, rfl, hmem⟩ := mem_of_under? h
  exact Doc.mem_valuesAt.mpr hmem

theorem noteAt_note (h : noteAt notes i key = .ok (note, space)) :
    note = (under? notes (placeKey i key)).getD (.map []) := by
  obtain ⟨note', hnote, wic, -, s, -, h⟩ := of_bind₃ h
  rw [← (Prod.mk.inj (pure_eq_ok.mp h)).1]
  exact fieldD_eq_ok hnote

/-- The annotation of a step says the same of the step itself after its workflow was compiled, or
nothing. -/
theorem noteAfter_noteArgs (h : (noteAfter i key old new notes note).Yields r) :
    r.2 = note ∨ noteArgs r.2 = .map [] := by
  rcases noteAfter_cases h with ⟨-, rfl⟩ | ⟨-, wic, es, -, -, rfl⟩
  · exact .inl rfl
  · exact .inr (by simp [noteArgs, Doc.obj, remove])

section Step

variable {yml : Doc}

theorem StepRun.brought_values (run : StepRun sub c i key d e) (ho : opened yml = some o)
    (hkey : o.keys[i]? = some key) (hd : Awaits o i d) {Q : String → Doc → Prop}
    (hid : ∀ s, Q "id" (.str s))
    (hQ : ∀ k a b c, Q k a → Q k b → Doc.mergeValue a b = .ok c → Q k c)
    (h : ∀ s ∈ sayingsAt yml i, ∀ k, ∀ x ∈ s.valuesAt k, Q k x) :
    ∀ k, ∀ x ∈ (run.brought.step i).valuesAt k, Q k x := by
  have hget : o.keys.getD i "" = key := getD_of_getElem? hkey
  simp only [sayingsAt, ho, Option.elim_some, hget] at h
  rcases run.brought_cases with ⟨⟨inner⟩⟩ | ⟨⟨tool⟩⟩
  · rw [if_pos inner.isSub] at h
    rw [inner.step_eq]
    obtain ⟨id, -, hstep⟩ := of_bind inner.giving
    obtain ⟨args, hargs, merged, hmerged, es, hes, hstep⟩ := of_bind₃ hstep
    rw [entries_eq_ok] at hes
    subst hes
    rw [← pure_eq_ok.mp hstep]
    -- the annotation may have been replaced by one that says nothing of the step itself
    have hnote : ∀ k, ∀ x ∈ (noteArgs run.inner).valuesAt k, Q k x := by
      rcases noteAfter_noteArgs inner.noting with heq | hnone
      · dsimp only at heq
        rw [heq, noteAt_note ((hd.noteAt_eq key).symm.trans run.noted)]
        exact h _ (by simp)
      · intro k x hx
        rw [hnone] at hx
        cases Doc.mem_valuesAt.mp hx
    rw [field_eq_ok, hd.step] at hargs
    have hgiven : ∀ k, ∀ x ∈ args.valuesAt k, Q k x := h args (by rw [hargs]; exact mem_cons_self)
    have hall := Doc.valuesAt_merge hQ hgiven hnote hmerged
    intro k x hx
    rw [Doc.mem_valuesAt, ← write_str] at hx
    rcases Doc.mem_write hx with hx | ⟨hk, rfl⟩
    · exact hall k x (Doc.mem_valuesAt.mpr hx)
    · cases hk
      exact hid id
  · rw [if_neg (by simp [tool.isTool])] at h
    rw [tool.brought]
    change ∀ k, ∀ x ∈ (d.step i).valuesAt k, Q k x
    rw [hd.step]
    exact h _ mem_cons_self

/-- Before its inputs are bound, a step has those that were given for it; a step that starts a
compilation of its own is told where to find things. -/
theorem prepare_in (h : prepare c name i key tool d = .ok e) :
    key ≠ interpreterKey ∧ under? (e.step i) "in" = some ((under? (d.step i) "in").getD (.map [])) ∨
      key = interpreterKey ∧ ∃ es calls, (under? (d.step i) "in").getD (.map []) = .map es ∧
          under? (e.step i) "in" =
          some (.map (setTags c.setting.tags c.setting.cwd es c.task.namespaces name calls).1) := by
  obtain ⟨d₁, hd₁, h⟩ := of_bind h
  have hin : under? (d₁.step i) "in" = some ((under? (d.step i) "in").getD (.map [])) := by
    obtain ⟨hi, fs, rfl, hfs, -⟩ := setRun_spec hd₁
    rw [step_setStep _ hi]
    exact hfs
  split at h
  · rename_i hkey
    refine .inr ⟨hkey, ?_⟩
    obtain ⟨ins, hins, h⟩ := of_bind h
    split at h
    · rename_i es
      obtain ⟨hi, fs, rfl, hfs, -⟩ := setPart_spec h
      have heq : some (Doc.map es) = some ((under? (d.step i) "in").getD (.map [])) :=
        (field_eq_ok.mp hins).symm.trans hin
      refine ⟨es, d₁.edgeCalls, (Option.some.inj heq).symm, ?_⟩
      rw [step_setStep _ hi, under?_map, hfs]
    · simp at h
  · rename_i hkey
    rw [← pure_eq_ok.mp h]
    exact .inl ⟨hkey, hin⟩

theorem inputNames_map : a ∈ inputNames (.map es) ↔ (∃ v, (.str a, v) ∈ es) := by
  simp only [inputNames, Doc.members, Except.toOption, Option.getD_some, mem_filterMap,
    List.mem_map]
  constructor
  · rintro ⟨k, ⟨⟨l, v⟩, hv, rfl⟩, hk⟩
    cases l <;> simp_all [Doc.str?]
    exact ⟨v, hv⟩
  · rintro ⟨v, hv⟩
    exact ⟨_, ⟨_, hv, rfl⟩, rfl⟩

theorem inputNames_mergeValue {x y z : Doc} {names : List String}
    (hx : ∀ a ∈ inputNames x, a ∈ names) (hy : ∀ a ∈ inputNames y, a ∈ names)
    (h : Doc.mergeValue x y = .ok z) : ∀ a ∈ inputNames z, a ∈ names := by
  cases y with
  | map es =>
    simp only [Doc.mergeValue] at h
    split at h
    · split at h
      · cases h
      · rename_i ds _ r hr
        cases h
        intro a ha
        obtain ⟨v, hv⟩ := inputNames_map.mp ha
        refine Doc.mem_mergeEntries (Q := fun k _ => k ∈ names) (fun _ _ _ _ h _ _ =>
          h) ?_ ?_ hr a v hv
        · exact fun k w hw => hx k (inputNames_map.mpr ⟨w, hw⟩)
        · exact fun k w hw => hy k (inputNames_map.mpr ⟨w, hw⟩)
    · cases h
  | _ =>
    simp only [Doc.mergeValue] at h
    split at h
    · cases h
      exact hy
    · cases h

theorem StepRun.mem_providedAt (run : StepRun sub c i key d e) (ho : opened yml = some o)
    (hkey : o.keys[i]? = some key) (hd : Awaits o i d) (ha : .str a ∈ run.provided) :
    a ∈ providedAt yml i := by
  have hget : (keysIn yml).getD i "" = key := by
    rw [keysIn, ho, Option.elim_some, getD_of_getElem? hkey]
  have hstated : ∀ v, under? (run.brought.step i) "in" = some v →
      ∀ a ∈ inputNames v, a ∈ statedAt yml i := by
    intro v hv
    refine run.brought_values ho hkey hd (Q := fun k x =>
      k = "in" → ∀ a ∈ inputNames x, a ∈ statedAt yml i) ?_ ?_ ?_
      "in" v (mem_valuesAt_of_under? hv) rfl
    · exact fun s h => absurd h (by decide)
    · exact fun k x y z hx hy hz hk => inputNames_mergeValue (hx hk) (hy hk) hz
    · rintro s hs k x hx rfl a ha
      exact mem_flatMap.mpr ⟨s, hs, mem_flatMap.mpr ⟨x, hx, ha⟩⟩
  have hempty : ∀ v, (under? (run.brought.step i) "in").getD (.map []) = v →
      ∀ a ∈ inputNames v, a ∈ statedAt yml i := by
    rintro v rfl
    cases hin : under? (run.brought.step i) "in" with
    | none => simp [inputNames, Doc.members, Except.toOption]
    | some v => exact hstated v hin
  have hnames : a ∈ inputNames run.ins := by
    rw [inputNames, run.members_eq]
    exact mem_filterMap.mpr ⟨_, ha, rfl⟩
  unfold providedAt
  rw [hget]
  rcases prepare_in run.preparing with ⟨-, hin⟩ | ⟨hkey, es, calls, hes, hin⟩
  · rw [run.ins_eq] at hin
    rw [Option.some.inj hin] at hnames
    exact mem_append_left _ (hempty _ rfl a hnames)
  · rw [run.ins_eq] at hin
    rw [Option.some.inj hin, inputNames_map] at hnames
    obtain ⟨v, hv⟩ := hnames
    have hhas := has_of_mem hv
    simp only [setTags, foldl_cons, foldl_nil, has_put, Bool.or_eq_true, decide_eq_true_eq] at hhas
    rw [if_pos hkey]
    refine mem_append.mpr ?_
    rcases hhas with rfl | rfl | rfl | hhas
    · exact .inr (by simp [pathInputs])
    · exact .inr (by simp [pathInputs])
    · exact .inr (by simp [pathInputs])
    · obtain ⟨w, hw⟩ := Option.isSome_iff_exists.mp hhas
      exact .inl (hempty _ hes a (inputNames_map.mpr ⟨w, mem_of_get? hw⟩))

section

variable (run : StepRun sub c i key d e) (hl : l ∉ ["in", "out", "when"])

include run hl

theorem StepRun.last_field :
    under? (e.step i) l = under? (run.bound.step i) l := by
  obtain ⟨outs, sigs, -, -, s, h, hs⟩ := run.closed_spec
  have hstep : e.step i = s := by
    rw [step_congr (congrArg steps h :)]
    exact step_setStep s (lt_length_of_under? run.bound_in)
  simp only [mem_cons, not_mem_nil, or_false, not_or] at hl
  rw [hstep]
  exact hs l hl.2.1 hl.2.2

theorem StepRun.taken_field :
    under? (run.taken.step i) l = under? (run.prepared.step i) l := by
  have hin : l ≠ "in" := by rintro rfl; simp at hl
  have hout : l ≠ "out" := by rintro rfl; simp at hl
  obtain ⟨gs, hnamed, hgs⟩ := run.named_step
  have htaken : under? (run.taken.step i) l = under? (run.named.step i) l := by
    refine run.taken_chain.keeps (P := fun x : Draft => under? (x.step i) l = _) ?_ rfl
    rintro k - x y heq ⟨hx, arg, val, val', z, -, -, -, hz, hcore, -⟩
    exact ((hz.rebinds hcore).field hx hin).trans heq
  rw [htaken, hnamed, under?_map, hgs l hout, run.owned_field hin]

theorem StepRun.bound_field
    (h : Chain (Supplies c run.site run.provided run.referred) as x run.bound) :
    under? (e.step i) l = under? (x.step i) l := by
  refine (run.last_field hl).trans
    (h.keeps (P := fun y => under? (y.step i) l = under? (x.step i) l) ?_ rfl)
  rintro arg - y z heq ⟨hy, f, hf, hcore, -⟩
  exact ((hf.rebinds hcore).field hy (by rintro rfl; simp at hl)).trans heq

theorem StepRun.prepared_field : under? (e.step i) l = under? (run.prepared.step i) l :=
  (run.bound_field hl run.bound_chain).trans (run.taken_field hl)

end

theorem StepRun.kept_field (run : StepRun sub c i key d e) (hl : l ∉ ["run", "in", "out", "when"]) :
    under? (e.step i) l = under? (run.brought.step i) l := by
  obtain ⟨hrun, hl⟩ := not_or.mp fun h => hl (mem_cons.mpr h)
  obtain ⟨fs, hprepared, hfs⟩ := run.prepared_step
  rw [run.prepared_field hl, hprepared, under?_map, hfs l hrun (by rintro rfl; simp at hl)]

/-- The last time that an input which must be given was supplied, with what held then and what is
left of it. -/
structure LastSupply (run : StepRun sub c i key d e) (P : Draft → Prop) (a : String) where
  before : Draft
  after : Draft
  holds : P before
  supplied : Supplied c run.site run.provided run.referred before a after
  stated : before.HasIn i
  notes : e.notes = before.notes
  tools : e.tools = before.tools
  others : ∀ j, i ≠ j → e.step j = before.step j
  frame : Frame i after e
  binding : get? (bindings (e.step i)) a = get? (bindings (after.step i)) a
  fields : ∀ l, l ∉ ["in", "out", "when"] → under? (e.step i) l = under? (before.step i) l

theorem StepRun.lastSupply (run : StepRun sub c i key d e) {P : Draft → Prop}
    (hP : ∀ a ∈ run.required, ∀ f g, P f →
      Supplies c run.site run.provided run.referred a f g → P g) (htaken : P run.taken)
    (ha : a ∈ run.required) : Nonempty (LastSupply run P a) := by
  obtain ⟨pre, post, f, g, hsplit, hpost, hpre, hfg, hrest⟩ := run.bound_chain.last_split ha
  obtain ⟨hf, g', hg', hcore, -⟩ := id hfg
  have hbound := Chain.cons hfg hrest
  have hmem : ∀ b ∈ pre, b ∈ run.required := fun b hb => by rw [hsplit]; exact mem_append_left _ hb
  have halong : Draft.Alongside f run.bound := by
    refine Draft.Alongside.of_chain ?_ hbound
    rintro arg x y ⟨-, z, hz, hcore, -⟩
    exact hz.alongside.trans (.of_core hcore)
  -- what is supplied later is another input
  have hkept : get? (bindings (run.bound.step i)) a = get? (bindings (g.step i)) a := by
    refine hrest.keeps (P := fun x : Draft => get? (bindings (x.step i)) a = _) ?_ rfl
    rintro arg harg x y heq ⟨hx, z, hz, hzcore, -⟩
    refine ((hz.rebinds hzcore).bindings_ne hx ?_).trans heq
    rintro rfl
    exact hpost harg
  obtain ⟨outs, sigs, -, -, s, hlast, -⟩ := run.closed_spec
  exact ⟨{
    before := f, after := g', supplied := hg', stated := hf
    fields := fun l hl => run.bound_field hl hbound
    holds := hpre.keeps (fun b hb x y hx hxy => hP b (hmem b hb) x y hx hxy) htaken
    notes := (congrArg notes hlast :).trans halong.notes
    tools := (congrArg tools hlast :).trans halong.tools
    others := ((Frame.of_chain (fun _ _ _ h => h.frame) hbound).trans run.last_frame).others
    frame := (Frame.of_core i hcore).trans
      ((Frame.of_chain (fun _ _ _ h => h.frame) hrest).trans run.last_frame)
    binding := by rw [run.last_bindings, hkept, step_congr (steps_of_core hcore)] }⟩

end Step

section Once

variable {set : Setting} {r : Compiled} {run : OnceRun sub set t r} {i : Nat}
  {d e : Draft}

theorem StepIn.mem_providedAt (here : StepIn run i d e) (ha : .str a ∈ here.head.provided) :
    a ∈ providedAt t.yml i := here.head.mem_providedAt run.opened here.key_eq here.awaits ha

end Once

open Namespaces

section Namespaces

variable {set : Setting} {t : Task} {r : Compiled}

theorem compileOnce_namespaces (h : (compileOnce sub set t).Yields r) :
    r.tree.part.namespaces = t.namespaces := by
  rcases compileOnce_cases h with ⟨⟨run⟩⟩ | ⟨_, _, _, _, _, -, hins⟩
  · obtain ⟨done, -, h⟩ := of_bind run.concluding
    obtain ⟨job, -, h⟩ := of_map h
    rw [← h]
    rfl
  · obtain ⟨yml, -, rfl⟩ := of_map hins
    rfl

theorem compileAt_namespaces (h : (compileAt set n t).Yields r) :
    r.tree.part.namespaces = t.namespaces := by
  obtain ⟨n, rfl⟩ := compileAt_succ h
  exact rounds_induct (P := fun t r => r.tree.part.namespaces = t.namespaces) (fun t r h =>
    compileOnce_namespaces h) (fun t s r _ h => h) (compileAt_rounds h).2

end Namespaces

section Step

variable {key a : String} {d e : Draft}
  {run : StepRun sub c i key d e}

theorem ToolRun.part_eq (tool : ToolRun run) :
    tool.part = ⟨[run.site.name], Path.stem run.tool.runPath, .map [], run.tool.cwl,
      run.tool.runPath, [], [], [], [], ""⟩ := by
  rcases bringIn_cases run.bringing with ⟨hsub, -⟩ | ⟨-, -, h⟩
  · rw [tool.isTool] at hsub
    cases hsub
  · obtain ⟨doc, -, h⟩ := of_bind h
    dsimp only at h
    split at h
    · simp at h
    · obtain ⟨hbrought, htool⟩ := Prod.mk.inj (pure_eq_ok.mp h)
      have hparts := congrArg parts hbrought
      rw [tool.brought] at hparts
      have hpart := append_cancel_left hparts
      simp only [cons.injEq, PartTree.node.injEq, and_true] at hpart
      rw [← hpart, ← htool]
      rfl

theorem ToolRun.namespaces (tool : ToolRun run) :
    tool.part.namespaces = [run.site.name] := congrArg Part.namespaces tool.part_eq

theorem StepRun.brought_namespaces (run : StepRun sub c i key d e)
    (hsub : ∀ u s, (sub u).Yields s → s.tree.part.namespaces = u.namespaces) :
    ∃ p, run.brought.parts = d.parts ++ [p] ∧ p.part.namespaces.getLast? = some run.site.name := by
  rcases run.brought_cases with ⟨⟨inner⟩⟩ | ⟨⟨tool⟩⟩
  · refine ⟨inner.result.tree, (Draft.Alongside.of_core inner.brought).parts, ?_⟩
    rw [hsub _ _ inner.running]
    exact getLast?_concat
  · refine ⟨.node tool.part [], by rw [tool.brought], ?_⟩
    change tool.part.namespaces.getLast? = _
    rw [tool.namespaces]
    rfl

/-- An input that the step does not provide takes the input of its own name, or an output of an
earlier step under the name of that step; a reference is written in another form. -/
inductive DrawnFrom (c : Scope) (i : Nat) (d : Draft) (a : String) : Doc → Prop
  | input (h : has d.inputs (stepName c.stem i (c.keys.getD i "") ++ sep ++ a)) :
      DrawnFrom c i d a (.str (stepName c.stem i (c.keys.getD i "") ++ sep ++ a))
  | output {m : Nat} {tool : Tool} {o : String} (hm : m < i) (htool : d.tools[m]? = some tool)
      (ho : o ∈ outputTexts tool.cwl) :
      DrawnFrom c i d a (.str (stepName c.stem m (c.keys.getD m "") ++ "/" ++ o))
  | reference (x : String) : DrawnFrom c i d a (source x)

theorem DrawnFrom.mono (h : DrawnFrom c i d a v)
    (hinputs : ∀ k, has d.inputs k → has e.inputs k) (htools : d.tools <+: e.tools) :
    DrawnFrom c i e a v := by
  cases h with
  | input h => exact .input (hinputs _ h)
  | @output m tool o hm htool ho =>
    obtain ⟨rest, hrest⟩ := htools
    refine .output hm ?_ ho
    rw [← hrest, getElem?_append_left (List.getElem?_eq_some_iff.mp htool).1, htool]
  | reference x => exact .reference x

theorem Supplied.drawn {s : Site} {provided : List Doc} {referred : List String}
    (h : Supplied c s provided referred d a e)
    (hname : s.name = stepName c.stem s.index (c.keys.getD s.index ""))
    (hprov : provided.any (· == .str a) = false) (hinfer : c.setting.options.noInference = false)
    (hin : d.HasIn s.index) :
    ∃ v, get? (bindings (e.step s.index)) a = some v ∧ DrawnFrom c s.index e a v := by
  cases h with
  | provided h =>
    rw [hprov] at h
    cases h
  | left _ h =>
    rw [hinfer] at h
    cases h
  | given =>
    refine ⟨_, get?_of_bind hin rfl, ?_⟩
    rw [Site.inName, hname]
    exact .input (by simp [Draft.bind, setStep, declare, has_put])
  | passedOn => exact ⟨_, get?_of_bind hin rfl, .reference _⟩
  | resolved => exact ⟨_, get?_of_bind hin rfl, .reference _⟩
  | inferred _ _ _ hfound =>
    obtain ⟨hlt, _, _, hoffered, -⟩ := searchSteps_found hfound rfl
    obtain ⟨tool, htool, hout⟩ := hoffered.mem_outputTexts
    exact ⟨_, get?_of_bind hin rfl, .output hlt htool hout⟩
  | raised =>
    refine ⟨_, get?_of_bind hin rfl, .input ?_⟩
    simp [Draft.bind, setStep, declare, has_put]

theorem StepRun.draws (run : StepRun sub c i key d e)
    (hname : run.site.name = stepName c.stem i (c.keys.getD i ""))
    (hinfer : c.setting.options.noInference = false) (hprov : .str a ∉ run.provided)
    (hv : get? (bindings (e.step i)) a = some v) : DrawnFrom c i e a v := by
  have hmem : Doc.str a ∈ run.provided ++ run.required.map .str :=
    run.bindsOnly _ (has_iff_mem.mp (Option.isSome_iff_exists.mpr ⟨v, hv⟩))
  have hreq : a ∈ run.required := by
    rcases mem_append.mp hmem with h | h
    · exact absurd h hprov
    · obtain ⟨b, hb, heq⟩ := mem_map.mp h
      cases heq
      exact hb
  have hnot := not_any_of_not_mem hprov
  obtain ⟨last⟩ := run.lastSupply (P := fun _ => True) (fun _ _ _ _ _ _ => trivial) trivial hreq
  obtain ⟨w, hw, hdrawn⟩ := last.supplied.drawn hname hnot hinfer last.stated
  change get? (bindings (last.after.step i)) a = some w at hw
  rw [last.binding, hw] at hv
  cases hv
  exact hdrawn.mono last.frame.inputs last.frame.tools

end Step

namespace PartTree

/-- The steps of a compiled workflow go by one name each: in the document, in the sources that are
inferred and the outputs that are brought up, and on the path of what they run. -/
structure OneName (set : Setting) (yml : Doc) (q : PartTree) : Prop where
  ids : (q.steps.map stepId).Nodup
  inferred : set.options.noInference = false → ∀ i step a v, q.steps[i]? = some step →
    a ∉ providedAt yml i → get? (bindings step) a = some v →
    v = .str (stepId step ++ sep ++ a) ∧ q.IsInput v ∨ (∃ m < i, q.IsOutput m v) ∨
    ∃ x, v = source x
  outputs : ∀ outs, under? q.part.cwl "outputs" = some (.map outs) → ∀ e ∈ outs,
    q.Declares e ∨ ∃ m src, under? e.2 "outputSource" = some src ∧ q.IsOutput m src
  children : ∀ (i : Nat) step (p : PartTree), q.steps[i]? = some step → q.subs[i]? = some p →
    p.part.namespaces.getLast? = some (stepId step)

end PartTree

section Once

variable {set : Setting} {t : Task} {r : Compiled} {i : Nat}

theorem StepIn.site_name {run : OnceRun sub set t r} {d e : Draft} (here : StepIn run i d e)
    (hknown : ∀ id ∈ toolIds t.yml, set.tools.has id) :
    here.head.site.name = stepName run.scope.stem i (run.scope.keys.getD i "") := by
  have hget : run.scope.keys.getD i "" = here.key := by
    rw [← here.keys_getD, run.keysIn_eq]
    rfl
  rw [hget]
  refine nameAt_eq fun htool => ?_
  exact hknown _ (here.mem_toolIds htool)

theorem OnceRun.drawn (run : OnceRun sub set t r) (hknown : ∀ id ∈ toolIds t.yml, set.tools.has id)
    (hinfer : set.options.noInference = false) (hi : i < run.start.keys.length)
    (ha : a ∉ providedAt t.yml i) (hv : get? (bindings (run.last.step i)) a = some v) :
    DrawnFrom run.scope i run.last a v := by
  obtain ⟨place⟩ := run.placeAt hi
  rw [place.later.steps i (Nat.le_refl i)] at hv
  refine (place.here.head.draws (place.here.site_name hknown) hinfer (fun hmem => ha ?_) hv).mono
    place.later.inputs place.later.tools
  exact place.here.mem_providedAt hmem

theorem StepIn.getLast?_namespaces {run : OnceRun sub set t r} {d e : Draft}
    (here : StepIn run i d e)
    (hsub : ∀ u s, (sub u).Yields s → s.tree.part.namespaces = u.namespaces)
    (hp : r.tree.subs[i]? = some p) : p.part.namespaces.getLast? = some here.head.site.name := by
  obtain ⟨q, hq, hlast⟩ := here.head.brought_namespaces hsub
  cases (here.subs_eq hq).symm.trans hp
  exact hlast

theorem OnceRun.children (run : OnceRun sub set t r)
    (hknown : ∀ id ∈ toolIds t.yml, set.tools.has id)
    (hsub : ∀ u s, (sub u).Yields s → s.tree.part.namespaces = u.namespaces)
    (hi : i < run.start.keys.length) (hp : r.tree.subs[i]? = some p) :
    p.part.namespaces.getLast? = some (stepName run.scope.stem i (run.scope.keys.getD i "")) := by
  obtain ⟨place⟩ := run.placeAt hi
  rw [place.here.getLast?_namespaces hsub hp, place.here.site_name hknown]

theorem OnceRun.oneName (run : OnceRun sub set t r) (hreg : ToolsNamed set)
    (hknown : ∀ id ∈ toolIds t.yml, set.tools.has id)
    (hsub : ∀ u s, (sub u).Yields s → s.tree.part.namespaces = u.namespaces) :
    r.tree.OneName set t.yml := by
  have hplaced := placedRun run (.inl hreg) hknown
  refine ⟨hplaced.ids_nodup, ?_, fun _ houts _ he => hplaced.outputs_generated houts he, ?_⟩
  · intro hinfer i step a v hstep ha hv
    obtain ⟨hi, hid, hbindings⟩ := hplaced.steps_spec hstep
    rw [hbindings] at hv
    have hdrawn := run.drawn hknown hinfer hi ha hv
    rw [hid]
    cases hdrawn with
    | input h => exact .inl ⟨rfl, run.isInput (.inr ⟨_, rfl, h⟩)⟩
    | output hm htool ho =>
      exact .inr (.inl ⟨_, hm, hplaced.isOutput (Nat.lt_trans hm hi) htool ho⟩)
    | reference x => exact .inr (.inr ⟨x, rfl⟩)
  · intro i step p hstep hp
    obtain ⟨hi, hid, -⟩ := hplaced.steps_spec hstep
    rw [hid]
    exact run.children hknown hsub hi hp

end Once

/-- Every workflow inside a workflow whose tools are known under the keys of their steps comes out
with one name for each step. -/
theorem compile_oneName {set : Setting} {path : String} {yml : Doc} {graph : Graph} {r : Compiled}
    (hreg : ∀ e ∈ set.tools, Path.stem e.2.runPath = e.1.stem)
    (hknown : ∀ w ∈ within path yml, ∀ id ∈ toolIds w.2, set.tools.has id = true)
    (h : (compile set (.root path yml graph)).Yields r) (hun : Unaltered r.tree (path, yml)) :
    ∀ is w, subAt (path, yml) is = some w → ∃ q, r.tree.at? is = some q ∧ q.OneName set w.2 := by
  obtain ⟨s, hs, rfl⟩ := h.of_map
  intro is w hw
  obtain ⟨m, u, q, -, ⟨run⟩, rfl, hat⟩ := Faithful.atPath ⟨hs, hun⟩ hw
  exact ⟨q.tree, hat, run.oneName hreg (hknown u.flow (mem_within_subAt hw)) fun u s hs =>
    compileAt_namespaces hs⟩

namespace Sample

def referring : Doc :=
  workflow [step "echo" [("in", Doc.obj [("m", inline "x")]),
    ("out", .list [Doc.obj [("o", anchor "a")]])],
    inner "sub.wic" (workflow [step "cat" [("in", Doc.obj [("f", reference "a")])], step "cat" []])]

end Sample

open Sample in
theorem compile_oneName_referring :
    ∃ r, (compile (setting [echoTool, catTool])
        (.root "wf.wic" referring (Graph.empty "" ""))).Yields r ∧
      ∃ w, subAt ("wf.wic", referring) [1] = some w ∧
      ∃ q, r.tree.at? [1] = some q ∧ q.OneName (setting [echoTool, catTool]) w.2 := by
  have hsome : (compiled (setting [echoTool, catTool]) "wf.wic" referring).isSome = true := by
    decide +kernel
  obtain ⟨r, hr⟩ := Logged.yields_of_isSome hsome
  have hinner : (subAt ("wf.wic", referring) [1]).isSome = true := by decide +kernel
  obtain ⟨w, hw⟩ := Option.isSome_iff_exists.mp hinner
  refine ⟨r, hr, w, hw, ?_⟩
  exact compile_oneName (by decide +kernel) (by decide +kernel) hr
    (compile_unaltered rfl hr) [1] w hw

end WorkflowInference.Compile
